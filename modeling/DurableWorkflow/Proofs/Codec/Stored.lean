import DurableWorkflow.Proofs.Codec.Kept
import DurableWorkflow.Proofs.Json.Narrow

/-!
# Instances survive their storage

An instance is stored as the compact text of its JSON value. It is read from there as it was stored,
and what it is waiting for and has to deliver is the same, provided that the values of any kind in it
are kept by their text and that none of them stands for the text of another value.
-/

namespace DurableWorkflow

open Json

/-! ### Fields of a value with narrow integers -/

theorem Json.Fields.every_get? {p : Json → Bool} {names : List String} {j : Json} {fs : Fields}
    (h : Fields.ofJson? names j = some fs) (hp : every p j = true) {name : String} {j' : Json}
    (hget : fs.get? name = some j') : every p j' = true := by
  unfold Fields.ofJson? at h
  split at h
  · split at h
    · cases h
      obtain ⟨m, hm, rfl⟩ := Option.map_eq_some_iff.1 hget
      exact (every_obj.1 hp).2 m (List.mem_of_find?_eq_some hm)
    · cases h
  · split at h
    · cases h
      obtain ⟨m, hm, rfl⟩ := Option.map_eq_some_iff.1 hget
      exact (every_arr.1 hp).2 m.2 (List.of_mem_zip (List.mem_of_find?_eq_some hm)).2
    · cases h
  · cases h

theorem Signal.narrow_of_ofJson? {j : Json} {s : Signal} (hj : j.Narrow)
    (h : Signal.ofJson? j = some s) : s.payload.Narrow := by
  simp only [Signal.ofJson?, Option.bind_eq_bind, Option.bind_eq_some_iff] at h
  obtain ⟨fs, hfs, name, -, payload, hpayload, receivedAt, -, h⟩ := h
  cases h
  obtain rfl | ⟨_, hget, hpayload⟩ := Fields.orElse_some hpayload
  · rfl
  · exact narrow_of_toValue? (Fields.every_get? hfs hj hget) hpayload

namespace Instance

theorem narrow_of_ofJson? {j : Json} {s : Instance} (hj : j.Narrow) (h : ofJson? j = some s) :
    s.Carries Narrow := by
  obtain ⟨fs, hfs, h⟩ := readFrom_of_ofJson? h
  obtain ⟨_, hget, hcontext⟩ := Fields.required_some h.context
  refine ⟨narrow_of_toValue? (Fields.every_get? hfs hj hget) hcontext, fun signal hsignal => ?_⟩
  obtain ⟨_, hget, hsignal⟩ := Fields.optional_some h.delivered signal hsignal
  exact Signal.narrow_of_ofJson? (Fields.every_get? hfs hj hget) hsignal

/-! ### Text -/

/-- The text in which an instance is stored. -/
def text (s : Instance) : String := s.toJson.compact

def ofText? (s : String) : Option Instance := parseAs? ofJson? s

/-- Each value of any kind is the one read from its text, and does not nest too deep there. -/
structure Storable (s : Instance) : Prop where
  own : s.Carries Own
  exact : s.Carries fun j => j.reread = j
  contextDepth : s.context.depth < maxDepth
  payloadDepth : ∀ signal ∈ s.delivered, signal.payload.depth + 1 < maxDepth

theorem Storable.keeps {s : Instance} (h : s.Storable) (hv : s.Valid) (hn : s.Carries Narrow) :
    s.Keeps maxDepth where
  context := ⟨hv.context.isReadable, hn.context, h.exact.context, Nat.le_sub_one_of_lt h.contextDepth⟩
  payload := fun signal hsignal =>
    ⟨(hv.delivered signal hsignal).payload.isReadable, hn.payload signal hsignal,
      h.exact.payload signal hsignal, by
        have := h.payloadDepth signal hsignal
        omega⟩

theorem ofText?_text {s : Instance} (hv : s.Valid) (hn : s.Carries Narrow) (h : s.Storable) :
    ofText? s.text = some s := by
  rw [ofText?, text, parseAs?_kept (kept hv (h.keeps hv hn)), ofJson?_toJson hv h.own]

theorem ofText?_spec {t : String} {s : Instance} (h : ofText? t = some s) :
    s.Valid ∧ s.Carries Narrow := by
  obtain ⟨j, hj, hs⟩ := Option.bind_eq_some_iff.1 h
  cases hp : parseWithin .lenient maxDepth t with
  | error e => simp [hp, Except.toOption] at hj
  | ok k =>
    simp only [hp, Except.toOption, Option.some.injEq] at hj
    subst hj
    exact ⟨valid_of_ofJson? hs, narrow_of_ofJson? (narrow_of_parseWithin hp) hs⟩

/-- What is stored is read back, as a value and as text, whether the instance was made here or read
from elsewhere; what it waits for and has to deliver is the same before and after. -/
theorem read_back :
    (∀ s : Instance, s.Valid → s.Carries Own → ofJson? s.toJson = some s) ∧
    (∀ s : Instance, s.Valid → s.Carries Narrow → s.Storable → ofText? s.text = some s) ∧
    (∀ (j : Json) (s : Instance), ofJson? j = some s → s.Carries Own →
      ofJson? s.toJson = some s) ∧
    (∀ (t : String) (s : Instance), ofText? t = some s → s.Storable → ofText? s.text = some s) ∧
    ∀ s s' : Instance, s.Valid → s.Carries Narrow → s.Storable → ofText? s.text = some s' →
      s'.pendingDelivery = s.pendingDelivery ∧
      (∀ signal, s'.isWaitingFor signal = s.isWaitingFor signal) ∧
      ∀ now, s'.isWaitExpired now = s.isWaitExpired now := by
  refine ⟨fun s hv => ofJson?_toJson hv, fun s hv hn h => ofText?_text hv hn h,
    fun j s hj => ofJson?_toJson (valid_of_ofJson? hj), fun t s ht h => ?_, fun s s' hv hn h hs' => ?_⟩
  · obtain ⟨hv, hn⟩ := ofText?_spec ht
    exact ofText?_text hv hn h
  · rw [ofText?_text hv hn h] at hs'
    cases hs'
    exact ⟨rfl, fun _ => rfl, fun _ => rfl⟩

/-- An instance accepted a signal without a payload in a leap second. -/
def leaping : Instance where
  id := Uuid.ofNat 7
  workflow := "expense"
  version := { major := 1, minor := 2, patch := 3, pre := "rc.1", build := "b7" }
  contextType := "claim"
  context := .obj [("amount", .int 1200), ("note", .null)]
  status := .running
  createdAt := ⟨1483228799, 1500000000⟩
  updatedAt := ⟨1483228800, 1⟩
  waitingNode := some 2
  pending := [4, 3]
  delivered := some ⟨"approved", .null, ⟨1483228799, 1999999999⟩⟩
  history :=
    [⟨"submit", 0, ⟨0, 0⟩, ⟨0, 1000⟩, .succeeded, 1⟩,
      ⟨"check", 1, ⟨1, 0⟩, ⟨2, 0⟩, .failed "no \"receipt\"" true, 3⟩,
      ⟨"await", 2, ⟨2, 0⟩, ⟨3, 0⟩, .suspended "approved", 1⟩]
  revision := 5

theorem valid_leaping : leaping.Valid := by
  have htime (t : Timestamp) (h : t.inRange = true ∧ t.nanos < 2 * Nanos.perSecond ∧
      (Nanos.perSecond ≤ t.nanos → t.seconds % 60 = 59)) : t.Valid := ⟨h.1, h.2.1, h.2.2⟩
  have hsegment (cs : List Char) (h : cs ≠ [] ∧ cs.all Version.isSegmentChar = true ∧
      cs.head? ≠ some '0') (part : Version.Part) : Version.IsSegment part cs :=
    ⟨h.1, List.all_eq_true.1 h.2.1, fun _ _ _ => h.2.2⟩
  exact {
    version := {
      major := by decide
      minor := by decide
      patch := by decide
      pre := .inr ⟨[['r', 'c'], ['1']], by simp,
        List.forall_mem_cons.2 ⟨hsegment _ (by decide) _,
          List.forall_mem_singleton.2 (hsegment _ (by decide) _)⟩, rfl⟩
      build := .inr ⟨[['b', '7']], by simp,
        List.forall_mem_singleton.2 (hsegment _ (by decide) _), rfl⟩ }
    context := by decide +kernel
    createdAt := htime _ (by decide)
    updatedAt := htime _ (by decide)
    waitingNode := by decide
    deadline := by simp [leaping]
    pending := by decide
    delivered := by
      rintro signal ⟨rfl⟩
      exact ⟨rfl, htime _ (by decide)⟩
    history := by
      intro t ht
      simp only [leaping, List.mem_cons, List.not_mem_nil, or_false] at ht
      rcases ht with rfl | rfl | rfl <;>
        exact ⟨by decide, htime _ (by decide), htime _ (by decide), by decide⟩
    revision := by decide }

theorem carries_leaping {p : Json → Prop} (hcontext : p leaping.context) (hnull : p .null) :
    leaping.Carries p := ⟨hcontext, by rintro signal ⟨rfl⟩; exact hnull⟩

theorem storable_leaping : leaping.Storable where
  own := carries_leaping (by decide +kernel) rfl
  exact := carries_leaping rfl rfl
  contextDepth := by decide
  payloadDepth := by rintro signal ⟨rfl⟩; decide

theorem read_back_leaping :
    leaping.Valid ∧ leaping.Storable ∧ ofJson? leaping.toJson = some leaping ∧
      ofText? leaping.text = some leaping ∧
      (∀ s, ofText? leaping.text = some s →
        s.pendingDelivery = some (2, ⟨"approved", .null, ⟨1483228799, 1999999999⟩⟩)) :=
  have hnarrow := carries_leaping (p := Narrow) (by decide +kernel) rfl
  ⟨valid_leaping, storable_leaping, read_back.1 leaping valid_leaping storable_leaping.own,
    read_back.2.1 leaping valid_leaping hnarrow storable_leaping,
    fun s hs => (read_back.2.2.2.2 leaping s valid_leaping hnarrow storable_leaping hs).1⟩

/-! ### What is lost -/

/-- An instance that has not run. -/
def fresh (context : Json) : Instance :=
  create (Uuid.ofNat 1) "w" { major := 1, minor := 0, patch := 0 } "c" context ⟨0, 0⟩

theorem valid_fresh {context : Json} (h : context.Ordered) : (fresh context).Valid :=
  valid_create ⟨by decide, by decide, by decide, .inl rfl, .inl rfl⟩ h
    ⟨by decide, by decide, by decide⟩

/-- 0.9522444552911937 -/
def unkept : Binary64 := .finite false 8577055548030082 (-53)

/-- An array in an array in an array, and so on. -/
def nest : Nat → Json
  | 0 => .null
  | n + 1 => .arr [nest n]

theorem toList_nest (n : Nat) : (nest n).compact.toList =
    List.replicate n '[' ++ 'n' :: 'u' :: 'l' :: 'l' :: List.replicate n ']' := by
  induction n with
  | zero => rfl
  | succ n ih =>
    rw [nest, compact_arr, itemsText_singleton, ih, List.replicate_succ, List.replicate_succ']
    simp

/-- 0.9522444552911936, which the text of the other number is read as. -/
def misread : Binary64 := .finite false 8577055548030081 (-53)

def isMisread : Json → Bool
  | .float x => x = misread
  | _ => false

theorem reread_unkept : (Json.float unkept).reread = .float misread := by
  have h : isMisread (Json.float unkept).reread = true := by decide +kernel
  unfold isMisread at h
  split at h
  · next hread => rw [hread, of_decide_eq_true h]
  · cases h

theorem ofText?_unkept :
    ofText? (fresh (.float unkept)).text = some (fresh (.float misread)) := by
  have hlegible : Legible (fresh (.float unkept)).toJson :=
    ⟨rfl, by decide, by decide +kernel⟩
  have hreread : (fresh (.float unkept)).reread = fresh (.float misread) := by
    simp only [reread, fresh, create, reread_unkept, Option.map_none]
  rw [ofText?, text, parseAs?_compact hlegible (by decide), reread_toJson, hreread]
  exact ofJson?_toJson (valid_fresh rfl) ⟨rfl, by simp [fresh, create]⟩

theorem toList_text_nest : (fresh (nest maxDepth)).text.toList = '\x7b' :: (membersText
    [("instance_id", (Uuid.ofNat 1).toJson), ("workflow_id", .str "w"),
      ("workflow_version", .str "1.0.0"), ("context_type", .str "c")] ++ ',' ::
    ((quoted "context").toList ++ ':' :: ((List.replicate maxDepth '[' ++ 'n' :: 'u' :: 'l' ::
      'l' :: List.replicate maxDepth ']') ++ ',' :: membersText
    [("status", .str "created"), ("created_at", .str "1970-01-01T00:00:00Z"),
      ("updated_at", .str "1970-01-01T00:00:00Z"), ("pending", .arr []), ("history", .arr []),
      ("revision", .int 0)])) ++ ['\x7d']) := by
  rw [text, toJson_eq, compact_obj, ← toList_nest]
  have hsplit := membersText_append (List.cons_ne_nil ("instance_id", (Uuid.ofNat 1).toJson)
    [("workflow_id", .str "w"), ("workflow_version", .str "1.0.0"), ("context_type", .str "c")])
    (List.cons_ne_nil ("status", .str "created") [("created_at", .str "1970-01-01T00:00:00Z"),
      ("updated_at", .str "1970-01-01T00:00:00Z"), ("pending", .arr []), ("history", .arr []),
      ("revision", .int 0)]) ("context", nest maxDepth)
  exact congrArg (fun cs => '\x7b' :: (cs ++ ['\x7d'])) hsplit

theorem ofText?_nest : ofText? (fresh (nest maxDepth)).text = none := by
  rw [ofText?, parseAs?, parseWithin, toList_text_nest]
  exact Option.isNone_iff_eq_none.1 (by decide +kernel)

/-- An object whose reserved name comes first only when its members are in order. -/
def hidden : Json := .obj [("zzz", .int 1), (embeddedName, .str "1")]

/-- A floating point number is lost in the text, an object that begins with the reserved name is
refused where it was taken before, and so is what nests too deep in the text. -/
theorem not_all_read_back :
    ((fresh (.float unkept)).Valid ∧
      ofText? (fresh (.float unkept)).text ≠ some (fresh (.float unkept))) ∧
    ((ofJson? (fresh hidden).toJson).isSome = true ∧
      ((ofJson? (fresh hidden).toJson).bind fun s => ofJson? s.toJson) = none) ∧
    ((fresh (nest maxDepth)).Valid ∧ ofText? (fresh (nest maxDepth)).text = none) := by
  refine ⟨⟨valid_fresh rfl, fun h => ?_⟩, ⟨by decide +kernel, ?_⟩,
    valid_fresh (by decide +kernel), ofText?_nest⟩
  · rw [ofText?_unkept] at h
    have hcontext : Json.float misread = .float unkept := congrArg context (Option.some.inj h)
    exact absurd (Json.float.inj hcontext) (by decide)
  · exact Option.isNone_iff_eq_none.1 (by decide +kernel)

end Instance

end DurableWorkflow
