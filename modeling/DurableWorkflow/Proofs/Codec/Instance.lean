import DurableWorkflow.Instance.Codec
import DurableWorkflow.Proofs.Codec.Basic
import DurableWorkflow.Proofs.Codec.Timestamp
import DurableWorkflow.Proofs.Codec.Version
import DurableWorkflow.Proofs.Json.Shape
import DurableWorkflow.Proofs.Text.Digits
import DurableWorkflow.Signal
import DurableWorkflow.Trace
import DurableWorkflow.Uuid

/-!
# Traces and signals read back

The records inside an instance. Each is read as what it was written from if its numbers fit their
widths, its timestamps are valid and its payload is taken as it is; and what is read is of this kind.
-/

namespace DurableWorkflow

open Json

theorem Json.toText?_str (s : String) : (Json.str s).toText? = some s := rfl

theorem Json.toNat?_nat {bits n : Nat} (h : n < twoTo bits) : (Json.nat n).toNat? bits = some n := by
  simp only [Json.nat, Json.toNat?, Bool.and_eq_true, decide_eq_true_eq]
  rw [if_pos ⟨by omega, by exact_mod_cast h⟩]
  simp

theorem Json.lt_of_toNat? {bits n : Nat} {j : Json} (h : j.toNat? bits = some n) :
    n < twoTo bits := by
  unfold Json.toNat? at h
  split at h
  · simp only [Option.ite_none_right_eq_some, Bool.and_eq_true, decide_eq_true_eq,
      Option.some.injEq] at h
    omega
  · cases h

theorem Json.toList?_ofList {α : Type} {f : Json → Option α} {g : α → Json} {as : List α}
    (h : ∀ a ∈ as, f (g a) = some a) : (Json.ofList g as).toList? f = some as := by
  simp only [Json.ofList, Json.toList?]
  induction as with
  | nil => rfl
  | cons a as ih =>
    rw [List.map_cons, List.mapM_cons, h a (by simp), ih fun a ha => h a (by simp [ha])]
    rfl

theorem Json.mem_toList? {α : Type} {f : Json → Option α} {j : Json} {as : List α}
    (h : j.toList? f = some as) : ∀ a ∈ as, ∃ j, f j = some a := by
  unfold Json.toList? at h
  split at h
  · next items =>
    induction items generalizing as with
    | nil =>
      cases h
      simp
    | cons j js ih =>
      simp only [List.mapM_cons, bind_pure_comp, Option.bind_eq_bind, Option.bind_eq_some_iff,
        Option.map_eq_map, Option.map_eq_some_iff] at h
      obtain ⟨a, ha, as', has, rfl⟩ := h
      intro b hb
      obtain rfl | hb := List.mem_cons.1 hb
      · exact ⟨j, ha⟩
      · exact ih has b hb
  · cases h

theorem NodeId.ofJson?_toJson {n : NodeId} (h : n < twoTo 32) : NodeId.ofJson? n.toJson = some n := by
  rw [NodeId.ofJson?, NodeId.toJson, Json.toNat?_nat h]

theorem NodeId.lt_of_ofJson? {j : Json} {n : NodeId} (h : NodeId.ofJson? j = some n) :
    n < twoTo 32 := Json.lt_of_toNat? h

namespace TraceOutcome

theorem ofJson?_toJson (o : TraceOutcome) : ofJson? o.toJson = some o := by
  cases o <;> rfl

end TraceOutcome

namespace StepTrace

structure Valid (t : StepTrace) : Prop where
  node : t.node < twoTo 32
  startedAt : t.startedAt.Valid
  completedAt : t.completedAt.Valid
  attempts : t.attempts < twoTo 32

def slots (t : StepTrace) : List (String × Option Json) :=
  [("step_name", some (.str t.step)), ("node_id", some t.node.toJson),
    ("started_at", some t.startedAt.toJson), ("completed_at", some t.completedAt.toJson),
    ("outcome", some t.outcome.toJson), ("attempts", some (.nat t.attempts))]

theorem toJson_eq (t : StepTrace) : t.toJson = .obj (filled t.slots) := rfl

theorem nodup_slots (t : StepTrace) : (t.slots.map (·.1)).Nodup := by
  simp [slots]

theorem ofJson?_toJson {t : StepTrace} (h : t.Valid) : ofJson? t.toJson = some t := by
  have hnd := t.nodup_slots
  rw [ofJson?, toJson_eq]
  refine some_bind (Fields.ofJson?_filled _ hnd) ?_
  refine some_bind (Fields.required_filled hnd (by simp [slots]) (toText?_str t.step)) ?_
  refine some_bind
    (Fields.required_filled hnd (by simp [slots]) (NodeId.ofJson?_toJson h.node)) ?_
  refine some_bind
    (Fields.required_filled hnd (by simp [slots]) (Timestamp.ofJson?_toJson h.startedAt)) ?_
  refine some_bind
    (Fields.required_filled hnd (by simp [slots]) (Timestamp.ofJson?_toJson h.completedAt)) ?_
  refine some_bind (Fields.required_filled hnd (by simp [slots]) t.outcome.ofJson?_toJson) ?_
  refine some_bind (Fields.required_filled hnd (by simp [slots]) (toNat?_nat h.attempts)) ?_
  rfl

theorem valid_of_ofJson? {j : Json} {t : StepTrace} (h : ofJson? j = some t) : t.Valid := by
  simp only [ofJson?, Option.bind_eq_bind, Option.bind_eq_some_iff] at h
  obtain ⟨fs, -, step, -, node, hnode, startedAt, hstarted, completedAt, hcompleted, outcome, -,
    attempts, hattempts, h⟩ := h
  cases h
  obtain ⟨_, -, hnode⟩ := Fields.required_some hnode
  obtain ⟨_, -, hstarted⟩ := Fields.required_some hstarted
  obtain ⟨_, -, hcompleted⟩ := Fields.required_some hcompleted
  obtain ⟨_, -, hattempts⟩ := Fields.required_some hattempts
  exact {
    node := NodeId.lt_of_ofJson? hnode
    startedAt := Timestamp.valid_of_ofJson? hstarted
    completedAt := Timestamp.valid_of_ofJson? hcompleted
    attempts := Json.lt_of_toNat? hattempts }

end StepTrace

namespace Signal

structure Valid (s : Signal) : Prop where
  payload : s.payload.Ordered
  receivedAt : s.receivedAt.Valid

def slots (s : Signal) : List (String × Option Json) :=
  [("name", some (.str s.name)), ("payload", some s.payload),
    ("received_at", some s.receivedAt.toJson)]

theorem toJson_eq (s : Signal) : s.toJson = .obj (filled s.slots) := rfl

theorem nodup_slots (s : Signal) : (s.slots.map (·.1)).Nodup := by
  simp [slots]

theorem ofJson?_toJson {s : Signal} (h : s.Valid) (hown : s.payload.Own) :
    ofJson? s.toJson = some s := by
  have hnd := s.nodup_slots
  rw [ofJson?, toJson_eq]
  refine some_bind (Fields.ofJson?_filled _ hnd) ?_
  refine some_bind (Fields.required_filled hnd (by simp [slots]) (toText?_str s.name)) ?_
  refine some_bind
    (Fields.orElse_filled hnd (by simp [slots]) (Json.toValue?_eq h.payload hown)) ?_
  refine some_bind
    (Fields.required_filled hnd (by simp [slots]) (Timestamp.ofJson?_toJson h.receivedAt)) ?_
  rfl

theorem valid_of_ofJson? {j : Json} {s : Signal} (h : ofJson? j = some s) : s.Valid := by
  simp only [ofJson?, Option.bind_eq_bind, Option.bind_eq_some_iff] at h
  obtain ⟨fs, -, name, -, payload, hpayload, receivedAt, hreceived, h⟩ := h
  cases h
  obtain ⟨_, -, hreceived⟩ := Fields.required_some hreceived
  refine ⟨?_, Timestamp.valid_of_ofJson? hreceived⟩
  obtain rfl | ⟨_, -, hpayload⟩ := Fields.orElse_some hpayload
  · rfl
  · exact Json.ordered_of_toValue? hpayload

end Signal

/-!
## Instances read back

An instance is valid if its numbers fit their widths, its version and its timestamps are valid, and
its context and the payload of an accepted signal are in order. Every instance that is read is valid,
and a valid instance is read as it was written, unless a value in it stands for the text of another.
-/

/-! ### Identifiers

The text of an identifier is its 32 digits of base sixteen in five groups. It is read as the
identifier it was written for, so different identifiers have different texts.
-/

namespace Uuid

open Text

/-- The values of the lowest `count` digits of base sixteen, highest first. -/
def nibbles : Nat → Nat → List Nat
  | 0, _ => []
  | count + 1, n => nibbles count (n / 16) ++ [n % 16]

theorem length_hexDigits (count n : Nat) : (hexDigits count n).length = count := by
  induction count generalizing n with
  | zero => rfl
  | succ count ih => simp [hexDigits, ih]

theorem mapM_hexDigits (count n : Nat) :
    (hexDigits count n).mapM hexValue? = some (nibbles count n) := by
  induction count generalizing n with
  | zero => rfl
  | succ count ih =>
    rw [hexDigits, List.mapM_append, ih]
    simp [hexValue?_hexDigit, nibbles]

theorem foldl_nibbles (count n init : Nat) :
    (nibbles count n).foldl (fun n d => 16 * n + d) init = 16 ^ count * init + n % 16 ^ count := by
  induction count generalizing n with
  | zero => simp [nibbles, Nat.mod_one]
  | succ count ih =>
    rw [nibbles, List.foldl_append, ih]
    have hmod : n % 16 ^ (count + 1) = 16 * (n / 16 % 16 ^ count) + n % 16 := by
      rw [Nat.pow_succ', Nat.mod_mul]
      omega
    simp only [List.foldl_cons, List.foldl_nil, hmod]
    rw [Nat.pow_succ', Nat.mul_add, Nat.mul_assoc, Nat.add_assoc]

/-- The groups of the text, each with the digits that lie lower. -/
def groups (n : Nat) : List (List Char) :=
  [hexDigits 8 (n / 2 ^ 96), hexDigits 4 (n / 2 ^ 80), hexDigits 4 (n / 2 ^ 64),
    hexDigits 4 (n / 2 ^ 48), hexDigits 12 n]

theorem toList_text (u : Uuid) :
    u.text.toList = ['-'].intercalate (groups u.bits.toNat) := by
  simp [text, groups, Nat.div_one]

theorem ofHex?_groups {n : Nat} (h : n < 2 ^ 128) : ofHex? (groups n).flatten = some (ofNat n) := by
  have hvalue : 16 ^ 12 * (16 ^ 4 * (16 ^ 4 * (16 ^ 4 * (16 ^ 8 * 0 + n / 2 ^ 96 % 16 ^ 8)
      + n / 2 ^ 80 % 16 ^ 4) + n / 2 ^ 64 % 16 ^ 4) + n / 2 ^ 48 % 16 ^ 4) + n % 16 ^ 12 = n := by
    omega
  simp only [ofHex?, groups, List.flatten_cons, List.flatten_nil, List.append_nil,
    List.mapM_append, mapM_hexDigits, bind_pure_comp, Option.map_eq_map, Option.bind_eq_bind,
    Option.bind_some, Option.map_some, List.foldl_append, foldl_nibbles, hvalue]

theorem ofHyphenated?_groups {a b c d e : List Char} (ha : a.length = 8) (hb : b.length = 4)
    (hc : c.length = 4) (hd : d.length = 4) (he : e.length = 12) :
    ofHyphenated? (['-'].intercalate [a, b, c, d, e]) = ofHex? [a, b, c, d, e].flatten := by
  simp [ofHyphenated?, List.getElem?_append, List.drop_append, List.drop_of_length_le, ha, hb, hc,
    hd, he]

theorem ofText?_text (u : Uuid) : ofText? u.text = some u := by
  have hlength : u.text.toList.length = 36 := by
    simp [toList_text, groups, length_hexDigits]
  have hread : ofHyphenated? u.text.toList = some u := by
    rw [toList_text, groups, ofHyphenated?_groups (length_hexDigits ..) (length_hexDigits ..)
      (length_hexDigits ..) (length_hexDigits ..) (length_hexDigits ..), ← groups,
      ofHex?_groups u.bits.isLt]
    simp [ofNat]
  simp only [ofText?, hlength, hread]
  rfl

theorem text_injective : Function.Injective text := fun u v h => by
  have huv : some u = some v := by rw [← u.ofText?_text, h, v.ofText?_text]
  exact Option.some.inj huv

theorem text_beq (u v : Uuid) : (u.text == v.text) = (u == v) := by
  rw [Bool.eq_iff_iff, beq_iff_eq, beq_iff_eq]
  exact ⟨fun h => text_injective h, congrArg text⟩

theorem ofJson?_toJson (u : Uuid) : ofJson? u.toJson = some u := by
  simp only [ofJson?, toJson, Json.toText?, Option.bind_some, ofText?_text]

end Uuid

/-! ### Instances -/

open Json

theorem Status.ofJson?_toJson (s : Status) : Status.ofJson? s.toJson = some s := s.ofText?_text

namespace Instance

structure Valid (s : Instance) : Prop where
  version : s.version.Valid
  context : s.context.Ordered
  createdAt : s.createdAt.Valid
  updatedAt : s.updatedAt.Valid
  waitingNode : ∀ n ∈ s.waitingNode, n < twoTo 32
  deadline : ∀ t ∈ s.deadline, t.Valid
  pending : ∀ n ∈ s.pending, n < twoTo 32
  delivered : ∀ signal ∈ s.delivered, signal.Valid
  history : ∀ t ∈ s.history, t.Valid
  revision : s.revision < twoTo 64

theorem valid_create {id : Uuid} {workflow contextType : String} {version : Version}
    {context : Json} {now : Timestamp} (hv : version.Valid) (hc : context.Ordered)
    (hn : now.Valid) : (create id workflow version contextType context now).Valid where
  version := hv
  context := hc
  createdAt := hn
  updatedAt := hn
  waitingNode := by simp [create]
  deadline := by simp [create]
  pending := by simp [create]
  delivered := by simp [create]
  history := by simp [create]
  revision := Nat.two_pow_pos 64

/-- What holds of the values of any kind that an instance carries, its context and the payload of
the signal it has accepted. -/
structure Carries (p : Json → Prop) (s : Instance) : Prop where
  context : p s.context
  payload : ∀ signal ∈ s.delivered, p signal.payload

def slots (s : Instance) : List (String × Option Json) :=
  [("instance_id", some s.id.toJson), ("workflow_id", some (.str s.workflow)),
    ("workflow_version", some s.version.toJson), ("context_type", some (.str s.contextType)),
    ("context", some s.context), ("status", some s.status.toJson),
    ("created_at", some s.createdAt.toJson), ("updated_at", some s.updatedAt.toJson),
    ("waiting_signal", s.awaited.map .str), ("waiting_node", s.waitingNode.map NodeId.toJson),
    ("wait_deadline", s.deadline.map Timestamp.toJson),
    ("pending", some (Json.ofList NodeId.toJson s.pending)),
    ("delivered_signal", s.delivered.map Signal.toJson),
    ("history", some (Json.ofList StepTrace.toJson s.history)), ("error", s.error.map .str),
    ("revision", some (.nat s.revision))]

theorem filled_cons_some (name : String) (j : Json) (slots : List (String × Option Json)) :
    filled ((name, some j) :: slots) = (name, j) :: filled slots := rfl

theorem filled_cons_map {α : Type} (name : String) (f : α → Json) (o : Option α)
    (slots : List (String × Option Json)) :
    filled ((name, o.map f) :: slots) = given name f o ++ filled slots := by
  cases o <;> rfl

theorem toJson_eq (s : Instance) : s.toJson = .obj (filled s.slots) := by
  simp only [toJson, slots, filled_cons_some, filled_cons_map, List.cons_append, List.nil_append,
    List.append_assoc]
  rfl

theorem nodup_slots (s : Instance) : (s.slots.map (·.1)).Nodup := by
  simp [slots]

/-- A valid instance is read as it was written. -/
theorem ofJson?_toJson {s : Instance} (h : s.Valid) (hown : s.Carries Own) :
    ofJson? s.toJson = some s := by
  have hnd := s.nodup_slots
  rw [ofJson?, toJson_eq]
  refine some_bind (Fields.ofJson?_filled _ hnd) ?_
  refine some_bind (Fields.required_filled hnd (by simp [slots]) s.id.ofJson?_toJson) ?_
  refine some_bind (Fields.required_filled hnd (by simp [slots]) (toText?_str s.workflow)) ?_
  refine some_bind
    (Fields.required_filled hnd (by simp [slots]) (Version.ofJson?_toJson h.version)) ?_
  refine some_bind (Fields.required_filled hnd (by simp [slots]) (toText?_str s.contextType)) ?_
  refine some_bind
    (Fields.required_filled hnd (by simp [slots]) (toValue?_eq h.context hown.context)) ?_
  refine some_bind (Fields.required_filled hnd (by simp [slots]) s.status.ofJson?_toJson) ?_
  refine some_bind
    (Fields.required_filled hnd (by simp [slots]) (Timestamp.ofJson?_toJson h.createdAt)) ?_
  refine some_bind
    (Fields.required_filled hnd (by simp [slots]) (Timestamp.ofJson?_toJson h.updatedAt)) ?_
  refine some_bind (Fields.optional_filled hnd (g := .str) (o := s.awaited) (by simp [slots])
    (fun a _ => toText?_str a) rfl) ?_
  refine some_bind (Fields.optional_filled hnd (g := NodeId.toJson) (o := s.waitingNode)
    (by simp [slots]) (fun n hn => NodeId.ofJson?_toJson (h.waitingNode n hn)) rfl) ?_
  refine some_bind (Fields.optional_filled hnd (g := Timestamp.toJson) (o := s.deadline)
    (by simp [slots]) (fun t ht => Timestamp.ofJson?_toJson (h.deadline t ht)) rfl) ?_
  refine some_bind (Fields.orElse_filled hnd (by simp [slots])
    (toList?_ofList fun n hn => NodeId.ofJson?_toJson (h.pending n hn))) ?_
  refine some_bind (Fields.optional_filled hnd (g := Signal.toJson) (o := s.delivered)
    (by simp [slots])
    (fun g hg => Signal.ofJson?_toJson (h.delivered g hg) (hown.payload g hg)) rfl) ?_
  refine some_bind (Fields.orElse_filled hnd (by simp [slots])
    (toList?_ofList fun t ht => StepTrace.ofJson?_toJson (h.history t ht))) ?_
  refine some_bind (Fields.optional_filled hnd (g := .str) (o := s.error) (by simp [slots])
    (fun a _ => toText?_str a) rfl) ?_
  refine some_bind (Fields.orElse_filled hnd (by simp [slots]) (toNat?_nat h.revision)) ?_
  rfl

/-- From which fields an instance is read, as far as these can hold what no instance may. -/
structure ReadFrom (s : Instance) (fs : Fields) : Prop where
  version : fs.required "workflow_version" Version.ofJson? = some s.version
  context : fs.required "context" toValue? = some s.context
  createdAt : fs.required "created_at" Timestamp.ofJson? = some s.createdAt
  updatedAt : fs.required "updated_at" Timestamp.ofJson? = some s.updatedAt
  waitingNode : fs.optional "waiting_node" NodeId.ofJson? = some s.waitingNode
  deadline : fs.optional "wait_deadline" Timestamp.ofJson? = some s.deadline
  pending : fs.orElse "pending" [] (toList? NodeId.ofJson?) = some s.pending
  delivered : fs.optional "delivered_signal" Signal.ofJson? = some s.delivered
  history : fs.orElse "history" [] (toList? StepTrace.ofJson?) = some s.history
  revision : fs.orElse "revision" 0 (toNat? 64) = some s.revision

theorem readFrom_of_ofJson? {j : Json} {s : Instance} (h : ofJson? j = some s) :
    ∃ fs, Fields.ofJson? fieldNames j = some fs ∧ s.ReadFrom fs := by
  obtain ⟨fs, hfs, h⟩ := of_some_bind h
  obtain ⟨_, -, h⟩ := of_some_bind h
  obtain ⟨_, -, h⟩ := of_some_bind h
  obtain ⟨_, hversion, h⟩ := of_some_bind h
  obtain ⟨_, -, h⟩ := of_some_bind h
  obtain ⟨_, hcontext, h⟩ := of_some_bind h
  obtain ⟨_, -, h⟩ := of_some_bind h
  obtain ⟨_, hcreated, h⟩ := of_some_bind h
  obtain ⟨_, hupdated, h⟩ := of_some_bind h
  obtain ⟨_, -, h⟩ := of_some_bind h
  obtain ⟨_, hnode, h⟩ := of_some_bind h
  obtain ⟨_, hdeadline, h⟩ := of_some_bind h
  obtain ⟨_, hpending, h⟩ := of_some_bind h
  obtain ⟨_, hdelivered, h⟩ := of_some_bind h
  obtain ⟨_, hhistory, h⟩ := of_some_bind h
  obtain ⟨_, -, h⟩ := of_some_bind h
  obtain ⟨_, hrevision, h⟩ := of_some_bind h
  cases h
  exact ⟨fs, hfs, hversion, hcontext, hcreated, hupdated, hnode, hdeadline, hpending, hdelivered,
    hhistory, hrevision⟩

/-- Whatever instance is read is valid. -/
theorem valid_of_ofJson? {j : Json} {s : Instance} (h : ofJson? j = some s) : s.Valid := by
  obtain ⟨fs, -, h⟩ := readFrom_of_ofJson? h
  obtain ⟨_, -, hversion⟩ := Fields.required_some h.version
  obtain ⟨_, -, hcontext⟩ := Fields.required_some h.context
  obtain ⟨_, -, hcreated⟩ := Fields.required_some h.createdAt
  obtain ⟨_, -, hupdated⟩ := Fields.required_some h.updatedAt
  exact {
    version := Version.valid_of_ofJson? hversion
    context := ordered_of_toValue? hcontext
    createdAt := Timestamp.valid_of_ofJson? hcreated
    updatedAt := Timestamp.valid_of_ofJson? hupdated
    waitingNode := fun n hn =>
      have ⟨_, _, hn⟩ := Fields.optional_some h.waitingNode n hn
      NodeId.lt_of_ofJson? hn
    deadline := fun t ht =>
      have ⟨_, _, ht⟩ := Fields.optional_some h.deadline t ht
      Timestamp.valid_of_ofJson? ht
    pending := fun n hn => by
      obtain hnil | ⟨_, -, hpending⟩ := Fields.orElse_some h.pending
      · simp [hnil] at hn
      · obtain ⟨_, hn⟩ := mem_toList? hpending n hn
        exact NodeId.lt_of_ofJson? hn
    delivered := fun g hg =>
      have ⟨_, _, hg⟩ := Fields.optional_some h.delivered g hg
      Signal.valid_of_ofJson? hg
    history := fun t ht => by
      obtain hnil | ⟨_, -, hhistory⟩ := Fields.orElse_some h.history
      · simp [hnil] at ht
      · obtain ⟨_, ht⟩ := mem_toList? hhistory t ht
        exact StepTrace.valid_of_ofJson? ht
    revision := by
      obtain hzero | ⟨_, -, hrevision⟩ := Fields.orElse_some h.revision
      · exact hzero ▸ Nat.two_pow_pos 64
      · exact lt_of_toNat? hrevision }

end Instance

end DurableWorkflow
