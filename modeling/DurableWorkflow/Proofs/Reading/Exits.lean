import DurableWorkflow.Proofs.Graph.Ends
import DurableWorkflow.Proofs.Reading.Compile

/-!
# Chains keep their ends

While a chain is built it keeps its open exits, the nodes to which the next one will be linked. They
are the nodes at which the chain may end in the graph that has been built so far (`Chain.Tracks`).
Linking them moves the ends of the chain to those of what is added (`mayEnd_link`), and a choice may
end where its arms may, or at its own node where an arm is empty (`mayEnd_choice`).
-/

namespace DurableWorkflow

variable {C H : Type}

/-- The exits of the chain are the nodes at which it may end. The chain lies between `lo` and `hi`. -/
structure Chain.Tracks (chain : Chain) (g : Graph C H) (lo hi : Nat) : Prop where
  inside : g.Inside lo hi
  size : hi ≤ g.size
  within : ∀ e : Nat, chain.entry = some e → lo ≤ e ∧ e < hi
  empty : chain.entry = none → chain.exits = []
  ends : ∀ e, chain.entry = some e → ∀ x, x ∈ chain.exits ↔ g.MayEnd e x
  nodup : chain.exits.Nodup

/-! ### Linking -/

theorem Node.successor_of_next {n : Node C H} (h : n.next = none) (next : Option NodeId)
    (verdict : Bool) :
    ({ n with next } : Node C H).successor verdict = (n.successor verdict).or next := by
  unfold successor
  cases n.kind with
  | conditional holds t e => simp [h]
  | step | sequence | parallel | delay => simp [h]

theorem Node.next_of_successor {n : Node C H} {verdict : Bool} (h : n.successor verdict = none) :
    n.next = none := by
  unfold successor at h
  split at h
  · exact (Option.or_eq_none_iff.1 h).2
  · exact h
  · exact h
  · exact h
  · exact h

namespace Graph

variable {g g' : Graph C H} {a b x lo mid hi : Nat} {exits : List NodeId}

/-- What a node leads to it still leads to after exits have been linked. -/
theorem flows_of_closed (hexits : ∀ x ∈ exits, g.Stops x)
    (hold : g'.get? a = g.closed exits (some mid) a) (h : g.Flows a b) : g'.Flows a b := by
  obtain ⟨n, hn, verdict, hb⟩ := h
  rw [closed, hn, Option.map_some] at hold
  by_cases ha : a ∈ exits
  · obtain ⟨k, hk, last, hstop⟩ := hexits a ha
    cases hn.symm.trans hk
    rw [if_pos ha] at hold
    refine ⟨_, hold, verdict, ?_⟩
    rw [Node.successor_of_next (Node.next_of_successor hstop), hb]
    rfl
  · rw [if_neg ha] at hold
    exact ⟨n, hold, verdict, hb⟩

/-- An exit leads to the node that it has been linked to. -/
theorem flows_of_exit (ha : a ∈ exits) (hstop : g.Stops a)
    (hold : g'.get? a = g.closed exits (some mid) a) : g'.Flows a mid := by
  obtain ⟨n, hn, verdict, hnone⟩ := hstop
  rw [closed, hn, Option.map_some, if_pos ha] at hold
  refine ⟨_, hold, verdict, ?_⟩
  rw [Node.successor_of_next (Node.next_of_successor hnone), hnone]
  rfl

/-- After exits have been linked, nodes lead where they have led before, or to the node that the
exits have been linked to; and exits do not stop. -/
theorem of_flows_closed (hexits : ∀ x ∈ exits, g.Stops x)
    (hold : g'.get? a = g.closed exits (some mid) a) :
    (∀ b, g'.Flows a b → g.Flows a b ∨ b = mid) ∧ (g'.Stops a → g.Stops a ∧ a ∉ exits) := by
  by_cases ha : a ∈ exits
  · obtain ⟨n, hn, last, hstop⟩ := hexits a ha
    rw [closed, hn, Option.map_some, if_pos ha] at hold
    have hnext := Node.successor_of_next (Node.next_of_successor hstop) (some mid)
    constructor
    · rintro b ⟨k, hk, verdict, hb⟩
      cases hold.symm.trans hk
      rw [hnext, Option.or_eq_some_iff] at hb
      rcases hb with hb | ⟨-, hb⟩
      · exact .inl ⟨n, hn, verdict, hb⟩
      · exact .inr (Option.some.inj hb).symm
    · rintro ⟨k, hk, verdict, hnone⟩
      cases hold.symm.trans hk
      rw [hnext, Option.or_eq_none_iff] at hnone
      simp at hnone
  · rw [closed_of_not_mem ha] at hold
    constructor
    · rintro b ⟨k, hk, hb⟩
      exact .inl ⟨k, hold.symm.trans hk, hb⟩
    · rintro ⟨k, hk, hnone⟩
      exact ⟨⟨k, hold.symm.trans hk, hnone⟩, ha⟩

/-- Where all ends of a chain are linked to what follows, it ends where that ends. -/
theorem mayEnd_link (hinside : g.Inside lo mid) (hsize : mid ≤ g.size) (hlo : lo ≤ a) (ha : a < mid)
    (hexits : ∀ x, x ∈ exits ↔ g.MayEnd a x)
    (hold : ∀ id, lo ≤ id → id < mid → g'.get? id = g.closed exits (some mid) id) :
    g'.MayEnd a x ↔ g'.MayEnd mid x := by
  have hstops : ∀ x ∈ exits, g.Stops x := fun x hx => ((hexits x).1 hx).2
  constructor
  · rintro ⟨hflow, hstop⟩
    -- Until flow has come to what follows, it is where it could be before.
    have hway : Relation.ReflTransGen g.Flows a x ∨ Relation.ReflTransGen g'.Flows mid x := by
      clear hstop
      induction hflow with
      | refl => exact .inl .refl
      | @tail b c _ hlast ih =>
        rcases ih with hb | hb
        · have hrange := hinside.flow hlo ha hb
          rcases (of_flows_closed hstops (hold b (by omega) hrange.2)).1 c hlast with hc | rfl
          · exact .inl (hb.tail hc)
          · exact .inr .refl
        · exact .inr (hb.tail hlast)
    rcases hway with hx | hx
    · have hrange := hinside.flow hlo ha hx
      obtain ⟨hstop', hnot⟩ := (of_flows_closed hstops (hold x (by omega) hrange.2)).2 hstop
      exact absurd ((hexits x).2 ⟨hx, hstop'⟩) hnot
    · exact ⟨hx, hstop⟩
  · rintro ⟨hflow, hstop⟩
    obtain ⟨e, he⟩ := hinside.exists_end hsize (fun _ => true) hlo ha
    obtain ⟨hway, hend⟩ := he.mayEnd
    have hlast := hinside.flow hlo ha hway
    have hwas : Relation.ReflTransGen g'.Flows a e := by
      clear hlast hend he
      induction hway with
      | refl => exact .refl
      | @tail b c hb hc ih =>
        have hrange := hinside.flow hlo ha hb
        exact ih.tail (flows_of_closed hstops (hold b (by omega) hrange.2) hc)
    have hlink := flows_of_exit ((hexits e).2 ⟨hway, hend⟩) hend (hold e (by omega) hlast.2)
    exact ⟨(hwas.tail hlink).trans hflow, hstop⟩

/-- A choice may end where its arms may, and at its node where an arm is missing. -/
theorem mayEnd_choice {holds : Predicate C} {t e : Option NodeId}
    (hn : g.get? a = some ⟨.conditional holds t e, none⟩) :
    g.MayEnd a x ↔ (∃ b, t = some b ∧ g.MayEnd b x) ∨ (∃ b, e = some b ∧ g.MayEnd b x) ∨
      (t = none ∨ e = none) ∧ x = a := by
  have hflows (b : Nat) : g.Flows a b ↔ t = some b ∨ e = some b := by
    simp [Flows, hn, Node.successor, Bool.exists_bool, or_comm]
  have hstops : g.Stops a ↔ t = none ∨ e = none := by
    simp [Stops, hn, Node.successor, Bool.exists_bool, or_comm]
  constructor
  · rintro ⟨hflow, hstop⟩
    rcases Relation.ReflTransGen.cases_head hflow with rfl | ⟨b, hb, hrest⟩
    · exact .inr (.inr ⟨hstops.1 hstop, rfl⟩)
    · rcases (hflows b).1 hb with hb | hb
      · exact .inl ⟨b, hb, hrest, hstop⟩
      · exact .inr (.inl ⟨b, hb, hrest, hstop⟩)
  · rintro (⟨b, hb, hrest, hstop⟩ | ⟨b, hb, hrest, hstop⟩ | ⟨hnone, rfl⟩)
    · exact ⟨.head ((hflows b).2 (.inl hb)) hrest, hstop⟩
    · exact ⟨.head ((hflows b).2 (.inr hb)) hrest, hstop⟩
    · exact ⟨.refl, hstops.2 hnone⟩

/-- A node of another kind ends its chain unless something follows it. -/
theorem mayEnd_single {n : Node C H} (hn : g.get? a = some n)
    (hsuccessor : ∀ verdict, n.successor verdict = none) : g.MayEnd a x ↔ x = a := by
  have hflows (b : Nat) : ¬g.Flows a b := by
    rintro ⟨k, hk, verdict, hb⟩
    cases hn.symm.trans hk
    rw [hsuccessor] at hb
    cases hb
  constructor
  · rintro ⟨hflow, -⟩
    rcases Relation.ReflTransGen.cases_head hflow with rfl | ⟨b, hb, -⟩
    · rfl
    · exact absurd hb (hflows b)
  · rintro rfl
    exact ⟨.refl, n, hn, true, hsuccessor true⟩

end Graph

/-! ### Items -/

namespace Chain.Tracks

variable {chain : Chain} {g g' : Graph C H} {lo hi x : Nat}

theorem congr (h : chain.Tracks g lo hi) (hsize : hi ≤ g'.size)
    (hsame : ∀ id, lo ≤ id → id < hi → g'.get? id = g.get? id) : chain.Tracks g' lo hi where
  inside id n h1 h2 hn m hm := h.inside id n h1 h2 ((hsame id h1 h2).symm.trans hn) m hm
  size := hsize
  within := h.within
  empty := h.empty
  ends e he x := by
    have hrange := h.within e he
    have hinside' : g'.Inside lo hi := fun id n h1 h2 hn m hm =>
      h.inside id n h1 h2 ((hsame id h1 h2).symm.trans hn) m hm
    rw [h.ends e he x]
    exact ⟨fun hx => hx.congr h.inside hrange.1 hrange.2 hsame,
      fun hx => hx.congr hinside' hrange.1 hrange.2 fun id h1 h2 => (hsame id h1 h2).symm⟩
  nodup := h.nodup

/-- The exits lie where the chain does. -/
theorem mem (h : chain.Tracks g lo hi) (hx : x ∈ chain.exits) : lo ≤ x ∧ x < hi := by
  cases he : chain.entry with
  | none => simp [h.empty he] at hx
  | some e =>
    have hrange := h.within e he
    have := h.inside.flow hrange.1 hrange.2 ((h.ends e he x).1 hx).1
    omega

end Chain.Tracks

/-! ### Compiling -/

theorem Item.nodes_pos (item : Item C H) : 0 < item.nodes := by
  cases item <;> simp only [Item.nodes] <;> omega

/-- What holds whatever the exits are linked to holds while they are open. -/
theorem Graph.Open.now {g : Graph C H} {lo hi : Nat} {exits : List NodeId}
    {P : Graph C H → Option NodeId → Prop} (h : g.Open lo hi exits P) : P g none :=
  h.close.holds g none fun _ _ _ => (Graph.closed_of_not_mem (by simp) none).symm

section

variable {registry : Registry C H}

theorem ChainHolds.inside {steady : Bool} {lo : Nat} {items : List (Item C H)} {chain : Chain}
    {g : Graph C H} (h : ChainHolds registry steady lo items chain g) : g.Inside lo g.size :=
  (h.opened.now.2 (by simp)).inside

namespace Item.Compiled

variable {item : Item C H} {place : Place} {chain : Chain} {d : Draft C H} {r : Chain × Draft C H}

theorem inside (h : item.Compiled registry place chain d r) :
    r.2.graph.Inside d.graph.size r.2.graph.size := by
  obtain ⟨exits, -, hopen⟩ := h.opened
  exact (hopen.now.2 (by simp)).inside

/-- An item that is no choice lies at a node that nothing follows yet. -/
theorem mayEnd (h : item.Compiled registry place chain d r) (hchoice : item.isChoice = false)
    (x : Nat) : r.2.graph.MayEnd d.graph.size x ↔ x = d.graph.size := by
  obtain ⟨exits, -, hopen⟩ := h.opened
  have hat := hopen.now.1
  cases item with
  | step s => exact Graph.mayEnd_single hat fun _ => rfl
  | registered type =>
    obtain ⟨s, -, hat⟩ := hat
    exact Graph.mayEnd_single hat fun _ => rfl
  | delay duration => exact Graph.mayEnd_single hat fun _ => rfl
  | choice => cases hchoice
  | parallel branches =>
    obtain ⟨children, hat, -⟩ := hat
    exact Graph.mayEnd_single hat fun _ => rfl
  | sequence items =>
    obtain ⟨children, hat, -⟩ := hat
    exact Graph.mayEnd_single hat fun _ => rfl

end Item.Compiled

/-- The chain that an item makes by itself. -/
def Item.own (d : Draft C H) (exits : List NodeId) : Chain :=
  { entry := some d.graph.size, exits }

/-- A chain to which an item has been added ends where the item does. -/
theorem Chain.Tracks.add {item : Item C H} {place : Place} {chain : Chain} {d : Draft C H}
    {r : Chain × Draft C H} {lo : Nat} (hplace : place.isolated = false) (hlo : lo ≤ d.graph.size)
    (h : chain.Tracks d.graph lo d.graph.size) (hitem : item.Compiled registry place chain d r)
    (hown : (Item.own d r.1.exits).Tracks r.2.graph d.graph.size r.2.graph.size)
    (hinside : r.2.graph.Inside lo r.2.graph.size) :
    r.1.Tracks r.2.graph lo r.2.graph.size := by
  have hrange := hown.within d.graph.size rfl
  have hends := hown.ends d.graph.size rfl
  have hentry := hitem.entry
  cases he : chain.entry with
  | none =>
    rw [he, Option.none_or] at hentry
    refine ⟨hinside, Nat.le_refl _, fun e h' => ?_, by simp [hentry], fun e h' => ?_, hown.nodup⟩
    · cases hentry.symm.trans h'
      omega
    · cases hentry.symm.trans h'
      exact hends
  | some e =>
    rw [he, Option.some_or] at hentry
    have hwithin := h.within e he
    have hlinked : chain.linked place = chain.exits := by simp [Chain.linked, hplace, he]
    refine ⟨hinside, Nat.le_refl _, fun e' h' => ?_, by simp [hentry], fun e' h' x => ?_, hown.nodup⟩
    · cases hentry.symm.trans h'
      omega
    · cases hentry.symm.trans h'
      rw [Graph.mayEnd_link h.inside h.size hwithin.1 hwithin.2 (h.ends e he) fun id _ hid => ?_]
      · exact hends x
      · rw [← hlinked]
        exact hitem.old id hid

/-- The arms of a choice keep their ends, and share none. -/
structure Arms.Track (arms : Arms) (g : Graph C H) (lo : Nat) : Prop where
  whenTrue : ∀ c, arms.whenTrue = some c → ∃ l h, lo ≤ l ∧ c.Tracks g l h
  whenFalse : ∀ c, arms.whenFalse = some c → ∃ l h, lo ≤ l ∧ c.Tracks g l h
  apart : ∀ t e, arms.whenTrue = some t → arms.whenFalse = some e → ∀ x ∈ t.exits, x ∉ e.exits

namespace Arms.Track

variable {arms : Arms} {c : Chain} {g g' : Graph C H} {lo : Nat}

theorem congr (h : arms.Track g lo) (hsize : g.size ≤ g'.size)
    (hsame : ∀ id, lo ≤ id → id < g.size → g'.get? id = g.get? id) : arms.Track g' lo := by
  have hmove (c : Chain) (hc : ∃ l h, lo ≤ l ∧ c.Tracks g l h) : ∃ l h, lo ≤ l ∧ c.Tracks g' l h := by
    obtain ⟨l, hi, hlo, hc⟩ := hc
    have hle := hc.size
    exact ⟨l, hi, hlo, hc.congr (by omega) fun id h1 h2 => hsame id (by omega) (by omega)⟩
  exact ⟨fun c hc => hmove c (h.whenTrue c hc), fun c hc => hmove c (h.whenFalse c hc), h.apart⟩

/-- An arm that is added behind the other one has other ends. -/
theorem disjoint {b : Chain} {mid : Nat} (hb : ∃ l h, lo ≤ l ∧ b.Tracks g l h)
    (hc : c.Tracks g' g.size mid) {x : Nat} (hx : x ∈ b.exits) : x ∉ c.exits := by
  intro hx'
  obtain ⟨l, hi, -, hb⟩ := hb
  have := hb.size
  have := hb.mem hx
  have := hc.mem hx'
  omega

theorem addTrue (h : arms.Track g lo) (hlo : lo ≤ g.size) (hc : c.Tracks g' g.size g'.size)
    (hsize : g.size ≤ g'.size) (hsame : ∀ id : Nat, id < g.size → g'.get? id = g.get? id) :
    ({ arms with whenTrue := some c } : Arms).Track g' lo := by
  have hold := h.congr hsize fun id _ hid => hsame id hid
  refine ⟨fun b hb => ?_, hold.whenFalse, fun t e ht he x hx hx' => ?_⟩
  · cases hb
    exact ⟨g.size, g'.size, hlo, hc⟩
  · cases ht
    exact disjoint (h.whenFalse e he) hc hx' hx

theorem addFalse (h : arms.Track g lo) (hlo : lo ≤ g.size) (hc : c.Tracks g' g.size g'.size)
    (hsize : g.size ≤ g'.size) (hsame : ∀ id : Nat, id < g.size → g'.get? id = g.get? id) :
    ({ arms with whenFalse := some c } : Arms).Track g' lo := by
  have hold := h.congr hsize fun id _ hid => hsame id hid
  refine ⟨hold.whenTrue, fun b hb => ?_, fun t e ht he x hx => ?_⟩
  · cases hb
    exact ⟨g.size, g'.size, hlo, hc⟩
  · cases he
    exact disjoint (h.whenTrue t ht) hc hx

/-- The ends of a choice whose arms have been added. -/
theorem ends {holds : Predicate C} (h : arms.Track g lo) {node : NodeId}
    (hn : g.get? node = some ⟨.conditional holds (arms.whenTrue.bind (·.entry))
      (arms.whenFalse.bind (·.entry)), none⟩) (x : Nat) :
    x ∈ arms.exits node ↔ g.MayEnd node x := by
  have harm (c : Option Chain) (hc : ∀ b, c = some b → ∃ l h, lo ≤ l ∧ b.Tracks g l h) :
      x ∈ (c.getD {}).exits ↔ ∃ e, c.bind (·.entry) = some e ∧ g.MayEnd e x := by
    cases c with
    | none => simp
    | some b =>
      obtain ⟨l, hi, -, hb⟩ := hc b rfl
      simp only [Option.getD_some, Option.bind_some]
      cases he : b.entry with
      | none => simp [hb.empty he]
      | some e => simp [hb.ends e he]
  rw [Graph.mayEnd_choice hn, ← harm _ h.whenTrue, ← harm _ h.whenFalse]
  simp only [Arms.exits, getD_entry, List.mem_append, or_assoc]
  simp

theorem nodup (h : arms.Track g lo) {node : NodeId} (hnode : node < lo) :
    (arms.exits node).Nodup := by
  have harm (c : Option Chain) (hc : ∀ b, c = some b → ∃ l h, lo ≤ l ∧ b.Tracks g l h) :
      (c.getD {}).exits.Nodup ∧ ∀ x ∈ (c.getD {}).exits, node < x := by
    cases c with
    | none => simp
    | some b =>
      obtain ⟨l, hi, hlo, hb⟩ := hc b rfl
      refine ⟨hb.nodup, fun x hx => ?_⟩
      have := hb.mem hx
      exact Nat.lt_of_lt_of_le hnode (by omega)
  obtain ⟨ht, htlo⟩ := harm _ h.whenTrue
  obtain ⟨he, helo⟩ := harm _ h.whenFalse
  have hapart : ∀ x ∈ (arms.whenTrue.getD {}).exits, x ∉ (arms.whenFalse.getD {}).exits := by
    cases htrue : arms.whenTrue with
    | none => simp
    | some t =>
      cases hfalse : arms.whenFalse with
      | none => simp
      | some e => exact h.apart t e htrue hfalse
  have hboth : ((arms.whenTrue.getD {}).exits ++ (arms.whenFalse.getD {}).exits).Nodup :=
    List.nodup_append.2 ⟨ht, he, fun x hx y hy hxy => hapart x hx (hxy ▸ hy)⟩
  refine List.nodup_append.2 ⟨hboth, by split <;> simp, fun x hx y hy => ?_⟩
  have hy : y = node := by
    split at hy <;> simp_all
  rcases List.mem_append.1 hx with hx | hx
  · exact hy ▸ Nat.ne_of_gt (htlo x hx)
  · exact hy ▸ Nat.ne_of_gt (helo x hx)

end Arms.Track

variable (registry)

theorem Item.exits_of_compile {item : Item C H} {place : Place} (hplace : place.isolated = false)
    (hchoice : item.isChoice = false) (chain : Chain) (d : Draft C H)
    (h : (item.compile registry place chain d).2.errors = []) :
    (item.compile registry place chain d).1.exits = [d.graph.size] := by
  have hadd (d' : Draft C H) : (d'.attach place chain d.graph.size).1.exits = [d.graph.size] := by
    rw [Draft.attach_fst, Chain.add, if_neg (by simp [hplace])]
  have hstep (s : Step C H) (h : (d.addStep place chain s).2.errors = []) :
      (d.addStep place chain s).1.exits = [d.graph.size] := by
    unfold Draft.addStep at h ⊢
    split at h
    · simp at h
    · next hs =>
      rw [if_neg hs]
      exact hadd _
  cases item with
  | step s =>
    rw [Item.compile] at h ⊢
    exact hstep s h
  | registered type =>
    rw [Item.compile] at h ⊢
    cases hs : registry.resolve type with
    | none => simp [hs] at h
    | some s =>
      simp only [hs] at h ⊢
      exact hstep s h
  | delay duration =>
    rw [Item.compile]
    exact hadd _
  | choice => cases hchoice
  | parallel branches =>
    rw [Item.compile_parallel registry place chain d branches rfl]
    exact hadd _
  | sequence items =>
    rw [Item.compile_sequence registry place chain d items rfl]
    exact hadd _

theorem Item.tracks_single {item : Item C H} {place : Place} (hplace : place.isolated = false)
    (hchoice : item.isChoice = false) {chain : Chain} {d : Draft C H}
    (hlt : ∀ id : Nat, id ∈ chain.linked place → id < d.graph.size)
    (h : (item.compile registry place chain d).2.errors = []) :
    (Item.own d (item.compile registry place chain d).1.exits).Tracks
      (item.compile registry place chain d).2.graph d.graph.size
      (item.compile registry place chain d).2.graph.size := by
  have hitem := item.compiled registry place chain d hlt h
  have hsize := hitem.size
  have hpos := item.nodes_pos
  rw [Item.exits_of_compile registry hplace hchoice chain d h]
  refine ⟨hitem.inside, Nat.le_refl _, fun e he => ?_, fun he => ?_, fun e he x => ?_, by simp [Item.own]⟩
  · cases he
    omega
  · cases he
  · cases he
    rw [hitem.mayEnd hchoice x]
    simp [Item.own]

theorem Chain.Tracks.nil (g : Graph C H) : ({} : Chain).Tracks g g.size g.size :=
  ⟨fun _ _ h1 h2 => by omega, Nat.le_refl _, by simp, fun _ => rfl, by simp, by simp⟩

theorem Item.compile_choice (place : Place) (chain : Chain) (d : Draft C H) (holds : Predicate C)
    (arms : List (Arm C H)) {r : Arms × Draft C H}
    (hr : compileArms registry place {} ((d.push (.conditional holds none none)).2.attach place chain
      d.graph.size).2 arms = r) :
    (Item.choice holds arms).compile registry place chain d =
      (if place.isolated then
          ((d.push (.conditional holds none none)).2.attach place chain d.graph.size).1
        else { ((d.push (.conditional holds none none)).2.attach place chain d.graph.size).1 with
          exits := r.1.exits d.graph.size },
        r.2.setKind d.graph.size (.conditional holds (r.1.whenTrue.bind (·.entry))
          (r.1.whenFalse.bind (·.entry)))) := by
  rw [Item.compile, ← hr]
  rfl

mutual

/-- An item ends at its exits. -/
theorem Item.compile_tracks (place : Place) (hplace : place.isolated = false) (chain : Chain)
    (d : Draft C H) (hlt : ∀ id : Nat, id ∈ chain.linked place → id < d.graph.size) :
    (item : Item C H) → (h : (item.compile registry place chain d).2.errors = []) →
      (Item.own d (item.compile registry place chain d).1.exits).Tracks
        (item.compile registry place chain d).2.graph d.graph.size
        (item.compile registry place chain d).2.graph.size
  | .choice holds arms, h => by
    have hitem := (Item.choice holds arms).compiled registry place chain d hlt h
    rw [Item.compile_choice registry place chain d holds arms rfl] at h hitem ⊢
    obtain ⟨_, _, _, _, _, _, harms⟩ := compileArms_block registry place arms {} _ h
    obtain ⟨-, hsize, hget⟩ := Draft.attach_spec harms.clean
    have hpush : (d.push (.conditional holds none none)).2.graph.size = d.graph.size + 1 :=
      Graph.size_push _
    have hstart := hsize.trans hpush
    have hgrown := harms.size
    have htrack := compileArms_tracks place (d.graph.size + 1) arms {} _ (Nat.le_of_eq hstart.symm)
      ⟨by simp, by simp, by simp⟩ h
    -- The node learns where its arms begin once they have been added.
    generalize hr : compileArms registry place {} ((d.push (.conditional holds none none)).2.attach
      place chain d.graph.size).2 arms = r at h hitem harms hgrown htrack ⊢
    generalize hkind : (NodeKind.conditional holds (r.1.whenTrue.bind (·.entry))
      (r.1.whenFalse.bind (·.entry)) : NodeKind C H) = kind at hitem ⊢
    have hnode : (r.2.setKind d.graph.size kind).graph.get? d.graph.size = some { kind } := by
      rw [Draft.setKind, Graph.get?_setKind_self, harms.old _ (by omega), hget,
        Graph.closed_of_not_mem fun hmem => absurd (hlt _ hmem) (Nat.lt_irrefl _)]
      simp only [Draft.push, Graph.get?_push_self, Option.map_some]
    have htrack : r.1.Track (r.2.setKind d.graph.size kind).graph (d.graph.size + 1) :=
      htrack.congr (Nat.le_of_eq (Graph.size_setKind _ _).symm) fun id hid _ =>
        Graph.get?_setKind_of_ne _ (Nat.ne_of_gt hid)
    subst hkind
    have hlast := hitem.size
    have hpos := (Item.choice holds arms).nodes_pos
    simp only [hplace, Bool.false_eq_true, if_false] at hitem hlast ⊢
    refine ⟨hitem.inside, Nat.le_refl _, fun e he => ?_, fun he => ?_, fun e he x => ?_,
      htrack.nodup (Nat.lt_succ_self _)⟩
    · cases he
      omega
    · cases he
    · cases he
      exact htrack.ends hnode x
  | .step s, h => Item.tracks_single registry hplace rfl hlt h
  | .registered type, h => Item.tracks_single registry hplace rfl hlt h
  | .delay duration, h => Item.tracks_single registry hplace rfl hlt h
  | .parallel branches, h => Item.tracks_single registry hplace rfl hlt h
  | .sequence items, h => Item.tracks_single registry hplace rfl hlt h

theorem compileItems_tracks (place : Place) (hplace : place.isolated = false) (lo : Nat) :
    (items : List (Item C H)) → (chain : Chain) → (d : Draft C H) → (done : List (Item C H)) →
      (hc : ChainHolds registry place.inParallel lo done chain d.graph) →
      (ht : chain.Tracks d.graph lo d.graph.size) →
      (h : (compileItems registry place chain d items).2.errors = []) →
      (compileItems registry place chain d items).1.Tracks
        (compileItems registry place chain d items).2.graph lo
        (compileItems registry place chain d items).2.graph.size
  | [], chain, d, done, hc, ht, h => by
    rw [compileItems]
    exact ht
  | item :: items, chain, d, done, hc, ht, h => by
    rw [compileItems] at h ⊢
    have hd := errors_of_compileItems registry place _ _ items h
    have hlt : ∀ id : Nat, id ∈ chain.linked place → id < d.graph.size := fun id hid =>
      (hc.opened.mem id (hc.linked hplace ▸ hid)).2
    have hitem := item.compiled registry place chain d hlt hd
    have hc' := (hc.concat hplace hitem).1
    have hown := item.compile_tracks place hplace chain d hlt hd
    exact compileItems_tracks place hplace lo items _ _ _ hc'
      (ht.add hplace hc.le hitem hown hc'.inside) h

theorem compileArms_tracks (place : Place) (lo : Nat) :
    (arms : List (Arm C H)) → (done : Arms) → (d : Draft C H) → (hlo : lo ≤ d.graph.size) →
      (hdone : done.Track d.graph lo) →
      (h : (compileArms registry place done d arms).2.errors = []) →
      (compileArms registry place done d arms).1.Track
        (compileArms registry place done d arms).2.graph lo
  | [], done, d, hlo, hdone, h => by
    rw [compileArms]
    exact hdone
  | .whenTrue items :: arms, done, d, hlo, hdone, h => by
    rw [compileArms] at h ⊢
    split at h
    · exact absurd (errors_of_compileArms registry place _ _ arms h) (Draft.note_errors_ne _)
    · next hnone =>
      rw [if_neg hnone]
      have hd := errors_of_compileArms registry place _ _ arms h
      obtain ⟨hsize, -, hold⟩ := compileItems_chain registry ⟨place.inParallel, false⟩ rfl
        d.graph.size items {} d [] (ChainHolds.nil registry _ d.graph) hd
      have hinner := compileItems_tracks ⟨place.inParallel, false⟩ rfl d.graph.size items {} d []
        (ChainHolds.nil registry _ d.graph) (Chain.Tracks.nil d.graph) hd
      exact compileArms_tracks place lo arms _ _ (by omega)
        (hdone.addTrue hlo hinner (by omega) hold) h
  | .whenFalse items :: arms, done, d, hlo, hdone, h => by
    rw [compileArms] at h ⊢
    split at h
    · exact absurd (errors_of_compileArms registry place _ _ arms h) (Draft.note_errors_ne _)
    · next hnone =>
      rw [if_neg hnone]
      have hd := errors_of_compileArms registry place _ _ arms h
      obtain ⟨hsize, -, hold⟩ := compileItems_chain registry ⟨place.inParallel, false⟩ rfl
        d.graph.size items {} d [] (ChainHolds.nil registry _ d.graph) hd
      have hinner := compileItems_tracks ⟨place.inParallel, false⟩ rfl d.graph.size items {} d []
        (ChainHolds.nil registry _ d.graph) (Chain.Tracks.nil d.graph) hd
      exact compileArms_tracks place lo arms _ _ (by omega)
        (hdone.addFalse hlo hinner (by omega) hold) h

end

end

end DurableWorkflow
