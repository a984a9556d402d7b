import DurableWorkflow.Json.Printer
import DurableWorkflow.Json.Reader
import DurableWorkflow.Json.Value
import DurableWorkflow.Proofs.Json.Floats
import DurableWorkflow.Proofs.Json.Numbers
import DurableWorkflow.Proofs.Json.Shape
import DurableWorkflow.Proofs.Text.Digits

/-!
# Compact text read back

What is read from the compact text of a value, in either manner, is the value itself but for its
floating point numbers, each of which is read as it is read on its own. The value must be one that
can be taken and nest no deeper than the reader goes, and its integers must fit 64 bits. The fuel
needed is twice the length of the text.
-/

namespace DurableWorkflow.Json

/-! ### Quoted text

One escape is read for each character that was written, so a text in quotation marks is read as that
text wherever it stands.
-/

open Text

variable {manner : Manner}

theorem readHex4_control {n : Nat} (h : n < 0x20) (rest : List Char) :
    readHex4 ('0' :: '0' :: hexDigit (n / 16) :: hexDigit n :: rest) = .ok (n, rest) := by
  have hzero : hexValue? '0' = some 0 := by decide
  have hvalue : ((0 * 16 + 0) * 16 + n / 16 % 16) * 16 + n % 16 = n := by omega
  simp only [readHex4, List.take_succ_cons, List.take_zero, List.mapM_cons, List.mapM_nil, hzero,
    hexValue?_hexDigit, Option.bind_eq_bind, Option.bind_some, Option.pure_def, hvalue]

theorem readUnicode_control {c : Char} (h : c.toNat < 0x20) (rest : List Char) :
    readUnicode manner ('0' :: '0' :: hexDigit (c.toNat / 16) :: hexDigit c.toNat :: rest)
      = .ok (some c, rest) := by
  have hpair : readPair c.toNat rest = .ok (c, rest) := by
    simp only [readPair, show ¬ 0xd800 ≤ c.toNat by omega, show ¬ 0xdc00 ≤ c.toNat by omega,
      decide_false, Bool.false_and, Bool.false_eq_true, if_false, Char.ofNat_toNat]
    rfl
  rw [readUnicode, readHex4_control h]
  simp only [bind, Except.bind, hpair]
  rfl

/-- One character is read from its escape. -/
theorem readString_escaped (c : Char) (fuel : Nat) (acc rest : List Char) :
    readString manner (fuel + 1) (some acc) (escaped c ++ rest)
      = readString manner fuel (some (c :: acc)) rest := by
  unfold escaped
  split
  · rfl
  · rfl
  · rfl
  · rfl
  · rfl
  next hquote hslash _ _ _ =>
  split
  · next h =>
    have hc : c = Char.ofNat 0x08 := by rw [← beq_iff_eq.1 h, Char.ofNat_toNat]
    rw [hc]
    rfl
  split
  · next h =>
    have hc : c = Char.ofNat 0x0c := by rw [← beq_iff_eq.1 h, Char.ofNat_toNat]
    rw [hc]
    rfl
  split
  · next h =>
    simp only [List.cons_append, List.nil_append, readString, readUnicode_control h]
    rfl
  next h =>
  simp only [List.cons_append, List.nil_append]
  rw [readString]
  · simp [h]
  · exact fun he => hquote he
  · exact fun _ he _ => hslash he
  · exact fun _ _ he _ => hslash he
  · exact fun he _ => hslash he

theorem readString_quoted (cs acc rest : List Char) {fuel : Nat} (h : cs.length < fuel) :
    readString manner fuel (some acc) (cs.flatMap escaped ++ '"' :: rest)
      = .ok (some (String.ofList (acc.reverse ++ cs)), rest) := by
  induction cs generalizing acc fuel with
  | nil =>
    obtain ⟨fuel, rfl⟩ : ∃ n, fuel = n + 1 := ⟨fuel - 1, by simp at h; omega⟩
    simp [readString]
  | cons c cs ih =>
    obtain ⟨fuel, rfl⟩ : ∃ n, fuel = n + 1 := ⟨fuel - 1, by simp at h; omega⟩
    rw [List.flatMap_cons, List.append_assoc, readString_escaped, ih (c :: acc) (by simpa using h)]
    simp

theorem length_le_escaped (cs : List Char) : cs.length ≤ (cs.flatMap escaped).length := by
  induction cs with
  | nil => simp
  | cons c cs ih =>
    have : 1 ≤ (escaped c).length := by
      unfold escaped
      split <;> try decide
      split <;> try decide
      split <;> try decide
      split <;> simp
    simp only [List.flatMap_cons, List.length_append, List.length_cons]
    omega

/-! ### Numbers -/

theorem skipSpace_cons {c : Char} (h : isSpace c = false) (cs : List Char) :
    skipSpace (c :: cs) = c :: cs := dropWhile_eq_self (by simpa using h)

theorem isSpace_of_startsNumber {c : Char} (h : c = '-' ∨ c.isDigit = true) : isSpace c = false := by
  obtain rfl | h := h
  · rfl
  · refine Bool.eq_false_iff.2 fun hs => ?_
    simp only [isSpace, Bool.or_eq_true, beq_iff_eq] at hs
    rcases hs with ((rfl | rfl) | rfl) | rfl <;> exact absurd h (by decide)

theorem isSpace_of_isNumeric {c : Char} (h : Binary64.isNumeric c = true) : isSpace c = false := by
  refine Bool.eq_false_iff.2 fun hs => ?_
  simp only [isSpace, Bool.or_eq_true, beq_iff_eq] at hs
  rcases hs with ((rfl | rfl) | rfl) | rfl <;> exact absurd h (by decide)

theorem readValue_number {fuel depth : Nat} {c : Char} {cs : List Char}
    (h : c = '-' ∨ c.isDigit = true) :
    readValue manner (fuel + 1) depth (c :: cs) = readNumber manner (c :: cs) := by
  have hother (d : Char) (hd : (d == '-' || d.isDigit) = false) : c ≠ d := by
    rintro rfl
    obtain rfl | h := h
    · cases hd
    · simp [h] at hd
  rw [readValue, skipSpace_cons (isSpace_of_startsNumber h)]
  split
  · next heq => cases heq
  · next heq => exact absurd (List.cons.inj heq).1 (hother _ (by decide))
  · next heq => exact absurd (List.cons.inj heq).1 (hother _ (by decide))
  · next heq => exact absurd (List.cons.inj heq).1 (hother _ (by decide))
  · next heq => exact absurd (List.cons.inj heq).1 (hother _ (by decide))
  · next heq => exact absurd (List.cons.inj heq).1 (hother _ (by decide))
  · next heq => exact absurd (List.cons.inj heq).1 (hother _ (by decide))
  · next heq =>
    cases heq
    rw [if_pos]
    obtain rfl | h := h
    · rfl
    · simp [h]

/-! ### Values that are read as they are written -/

theorem rereadItems_eq (items : List Json) : rereadItems items = items.map reread := by
  induction items with
  | nil => rfl
  | cons j js ih => simp [rereadItems, ih]

theorem rereadMembers_eq (members : List (String × Json)) :
    rereadMembers members = members.map fun m => (m.1, reread m.2) := by
  induction members with
  | nil => rfl
  | cons m rest ih => simp [rereadMembers, ih]

theorem itemsReadable_iff {items : List Json} :
    itemsReadable items = true ↔ ∀ j ∈ items, j.isReadable = true := by
  induction items with
  | nil => simp [itemsReadable]
  | cons j js ih => simp [itemsReadable, ih]

theorem membersReadable_iff {members : List (String × Json)} :
    membersReadable members = true ↔ ∀ m ∈ members, m.2.isReadable = true := by
  induction members with
  | nil => simp [membersReadable]
  | cons m rest ih => simp [membersReadable, ih]

/-- Not a floating point number whose text is refused. -/
def isWritten : Json → Bool
  | .float x => (parse (Json.float x).compact).isOk
  | _ => true

/-- Everything can be taken, integers fit 64 bits, and other numbers are read from their text. -/
structure Legible (j : Json) : Prop where
  readable : j.isReadable = true
  narrow : j.Narrow
  written : every isWritten j = true

namespace Legible

theorem items {items : List Json} (h : Legible (.arr items)) : ∀ j ∈ items, Legible j :=
  fun j hj => {
    readable := itemsReadable_iff.1 h.readable j hj
    narrow := (every_arr.1 h.narrow).2 j hj
    written := (every_arr.1 h.written).2 j hj }

theorem members {members : List (String × Json)} (h : Legible (.obj members)) :
    ∀ m ∈ members, Legible m.2 :=
  fun m hm => {
    readable := membersReadable_iff.1 h.readable m hm
    narrow := (every_obj.1 h.narrow).2 m hm
    written := (every_obj.1 h.written).2 m hm }

theorem int {n : Int} (h : Legible (.int n)) : -(twoTo 63 : Int) ≤ n ∧ n < twoTo 64 := by
  simpa [Narrow, every, isNarrow] using h.narrow

theorem float {x : Binary64} (h : Legible (.float x)) (hfinite : x.isFinite = true) :
    readNumber .strict x.text.toList = .ok (reread (.float x), []) := by
  have hok : (parse (Json.float x).compact).isOk = true := every_self h.written
  have hnumeric := Binary64.numeric_text hfinite
  obtain ⟨c, cs, hcs, hstart⟩ := hnumeric.starts
  rw [reread]
  simp only [compact, hfinite, if_true, parse, parseWithin] at hok ⊢
  rw [hcs, readValue_number hstart] at hok ⊢
  cases hread : readNumber .strict (c :: cs) with
  | error fault => simp [hread, bind, Except.bind, Except.isOk, Except.toBool] at hok
  | ok r =>
    obtain ⟨j, left⟩ := r
    have hspace : skipSpace left = left := by
      cases left with
      | nil => rfl
      | cons d left =>
        have hmem : d ∈ x.text.toList := by
          rw [hcs]
          exact (suffix_of_readNumber hread).subset (by simp)
        exact skipSpace_cons (isSpace_of_isNumeric (hnumeric.1 d hmem)) left
    simp only [hread, bind, Except.bind, hspace] at hok ⊢
    cases left with
    | nil => rfl
    | cons d left => cases hok

end Legible

/-! ### Beginnings and ends -/

/-- The characters of items with commas between them. -/
def itemsText (items : List Json) : List Char := (",".intercalate (compactItems items)).toList

/-- The characters of members with commas between them. -/
def membersText (members : List (String × Json)) : List Char :=
  (",".intercalate (compactMembers members)).toList

theorem itemsText_singleton (j : Json) : itemsText [j] = j.compact.toList := by
  simp [itemsText, compactItems]

theorem itemsText_cons (j j' : Json) (js : List Json) :
    itemsText (j :: j' :: js) = j.compact.toList ++ ',' :: itemsText (j' :: js) := by
  simp [itemsText, compactItems]

theorem membersText_singleton (m : String × Json) :
    membersText [m] = (quoted m.1).toList ++ ':' :: m.2.compact.toList := by
  simp [membersText, compactMembers]

theorem membersText_cons (m m' : String × Json) (rest : List (String × Json)) :
    membersText (m :: m' :: rest)
      = (quoted m.1).toList ++ ':' :: (m.2.compact.toList ++ ',' :: membersText (m' :: rest)) := by
  simp [membersText, compactMembers]

theorem membersText_append {front back : List (String × Json)} (hf : front ≠ []) (hb : back ≠ [])
    (m : String × Json) : membersText (front ++ m :: back) = membersText front ++ ',' ::
      ((quoted m.1).toList ++ ':' :: (m.2.compact.toList ++ ',' :: membersText back)) := by
  obtain ⟨b, bs, rfl⟩ := List.exists_cons_of_ne_nil hb
  induction front with
  | nil => exact absurd rfl hf
  | cons f fs ih =>
    cases fs with
    | nil => simp [membersText_cons, membersText_singleton]
    | cons f' fs => simpa [membersText_cons] using ih (by simp)

theorem toList_quoted (s : String) :
    (quoted s).toList = '"' :: (s.toList.flatMap escaped ++ ['"']) := by
  simp [quoted]

theorem compact_arr (items : List Json) :
    (Json.arr items).compact.toList = '[' :: (itemsText items ++ [']']) := by
  simp [compact, bracketed, itemsText]

theorem compact_obj (members : List (String × Json)) :
    (Json.obj members).compact.toList = '\x7b' :: (membersText members ++ ['\x7d']) := by
  simp [compact, bracketed, membersText]

/-- What may follow a value in a text: the end, a comma or a closing bracket. -/
def EndsValue (cs : List Char) : Prop :=
  Stops (fun c => !(c == ',' || c == ']' || c == '\x7d')) cs

theorem EndsValue.number {cs : List Char} (h : EndsValue cs) : EndsNumber cs := by
  refine h.mono fun c hc => ?_
  cases hend : (c == ',' || c == ']' || c == '\x7d') with
  | false => rfl
  | true =>
    simp only [Bool.or_eq_true, beq_iff_eq] at hend
    rcases hend with (rfl | rfl) | rfl <;> exact absurd hc (by decide)

/-- The first character of a value: not blank, and no bracket that closes. -/
def Begins (cs : List Char) : Prop :=
  ∃ c ds, cs = c :: ds ∧ isSpace c = false ∧ c ≠ ']' ∧ c ≠ '\x7d'

theorem begins_of_startsNumber {c : Char} (h : c = '-' ∨ c.isDigit = true) (cs : List Char) :
    Begins (c :: cs) := by
  refine ⟨c, cs, rfl, isSpace_of_startsNumber h, ?_, ?_⟩ <;>
    · rintro rfl
      simp at h

theorem Legible.begins {j : Json} (h : Legible j) : Begins j.compact.toList := by
  cases j with
  | null => exact ⟨'n', _, rfl, by decide, by decide, by decide⟩
  | bool b => cases b <;> exact ⟨_, _, rfl, by decide, by decide, by decide⟩
  | int n =>
    obtain ⟨c, cs, hcs, hstart⟩ := toString_int_starts n
    rw [compact, hcs]
    exact begins_of_startsNumber hstart cs
  | float x =>
    rw [compact]
    split
    · next hfinite =>
      obtain ⟨c, cs, hcs, hstart⟩ := (Binary64.numeric_text hfinite).starts
      rw [hcs]
      exact begins_of_startsNumber hstart cs
    · exact ⟨'n', _, rfl, by decide, by decide, by decide⟩
  | str s =>
    rw [compact, toList_quoted]
    exact ⟨'"', _, rfl, by decide, by decide, by decide⟩
  | arr items =>
    rw [compact_arr]
    exact ⟨'[', _, rfl, by decide, by decide, by decide⟩
  | obj members =>
    rw [compact_obj]
    exact ⟨'\x7b', _, rfl, by decide, by decide, by decide⟩
  | unreadable => exact absurd h.readable (by decide)

theorem Begins.append {cs : List Char} (h : Begins cs) (ds : List Char) : Begins (cs ++ ds) := by
  obtain ⟨c, cs, rfl, hc⟩ := h
  exact ⟨c, cs ++ ds, rfl, hc⟩

theorem begins_itemsText {j : Json} (h : Legible j) (js : List Json) :
    Begins (itemsText (j :: js)) := by
  cases js with
  | nil =>
    rw [itemsText_singleton]
    exact h.begins
  | cons j' js =>
    rw [itemsText_cons]
    exact h.begins.append _

theorem begins_quoted (s : String) : Begins (quoted s).toList := by
  rw [toList_quoted]
  exact ⟨'"', _, rfl, by decide, by decide, by decide⟩

theorem begins_membersText (m : String × Json) (rest : List (String × Json)) :
    Begins (membersText (m :: rest)) := by
  cases rest with
  | nil =>
    rw [membersText_singleton]
    exact (begins_quoted m.1).append _
  | cons m' rest =>
    rw [membersText_cons]
    exact (begins_quoted m.1).append _

theorem readItemEnd_last (rest : List Char) : readItemEnd (']' :: rest) = .ok (false, rest) := rfl

theorem readItemEnd_comma {rest : List Char} (h : Begins rest) :
    readItemEnd (',' :: rest) = .ok (true, rest) := by
  obtain ⟨c, cs, rfl, hspace, hitem, -⟩ := h
  have hskip := skipSpace_cons hspace cs
  rw [readItemEnd, skipSpace_cons (by decide)]
  simp only [hskip]
  split
  · next heq => exact absurd (List.cons.inj heq).1 hitem
  · rfl

theorem readMemberEnd_last (rest : List Char) :
    readMemberEnd ('\x7d' :: rest) = .ok (false, rest) := rfl

theorem readMemberEnd_comma {rest : List Char} (h : Begins rest) :
    readMemberEnd (',' :: rest) = .ok (true, rest) := by
  obtain ⟨c, cs, rfl, hspace, -, hmember⟩ := h
  have hskip := skipSpace_cons hspace cs
  rw [readMemberEnd, skipSpace_cons (by decide)]
  simp only [hskip]
  split
  · next heq => exact absurd (List.cons.inj heq).1 hmember
  · next heq => cases heq
  · rfl

theorem readColon_colon (rest : List Char) : readColon (':' :: rest) = .ok rest := rfl

theorem objectOf_named (members : List (String × Json)) :
    objectOf (members.map fun m => (some m.1, m.2.reread)) = .obj (rereadMembers members) := by
  have h (f : Option String × Json → Option (String × Json)) (hf : ∀ n j, f (some n, j) = (n, j)) :
      (members.map fun m => (some m.1, m.2.reread)).mapM f = some (rereadMembers members) := by
    induction members with
    | nil => rfl
    | cons m rest ih => simp [rereadMembers, hf, ih]
  rw [objectOf, h _ fun _ _ => rfl]

/-! ### Values in their text -/

theorem readName (manner : Manner) (name : String) {fuel : Nat}
    (hf : (quoted name).toList.length ≤ fuel) (rest : List Char) :
    ∃ tail, (quoted name).toList ++ rest = '"' :: tail ∧
      readString manner fuel (some []) tail = .ok (some name, rest) := by
  have hlen := length_le_escaped name.toList
  rw [toList_quoted] at hf ⊢
  simp only [List.length_cons, List.length_append, List.length_nil] at hf
  refine ⟨name.toList.flatMap escaped ++ '"' :: rest, by simp, ?_⟩
  rw [readString_quoted name.toList [] rest (by omega)]
  simp

/-- What the value is read as stands in its text in front of whatever may follow a value. -/
def ReadsBack (manner : Manner) (j : Json) : Prop :=
  ∀ {fuel depth : Nat} {rest : List Char}, j.depth ≤ depth → 2 * j.compact.toList.length ≤ fuel →
    EndsValue rest → readValue manner fuel depth (j.compact.toList ++ rest) = .ok (j.reread, rest)

theorem readItems_text {items : List Json} (hne : items ≠ []) (h : ∀ j ∈ items, Legible j)
    (hread : ∀ j ∈ items, ReadsBack manner j) {depth : Nat} (hd : ∀ j ∈ items, j.depth ≤ depth)
    (rest : List Char) {fuel : Nat} (hf : 2 * (itemsText items).length + 1 ≤ fuel) :
    readItems manner fuel depth (itemsText items ++ ']' :: rest) = .ok (items.map reread, rest) := by
  induction items generalizing fuel with
  | nil => exact absurd rfl hne
  | cons j js ih =>
    obtain ⟨fuel, rfl⟩ : ∃ n, fuel = n + 1 := ⟨fuel - 1, by omega⟩
    cases js with
    | nil =>
      rw [itemsText_singleton] at hf ⊢
      rw [readItems, hread j (by simp) (hd j (by simp)) (by omega) (by simp [EndsValue])]
      simp only [readItemEnd_last]
      rfl
    | cons j' js =>
      have hrest (hfuel : 2 * (itemsText (j' :: js)).length + 1 ≤ fuel) :=
        ih (by simp) (fun j hj => h j (by simp [hj])) (fun j hj => hread j (by simp [hj]))
          (fun j hj => hd j (by simp [hj])) hfuel
      rw [itemsText_cons] at hf ⊢
      simp only [List.length_append, List.length_cons] at hf
      have hbegins := (begins_itemsText (h j' (by simp)) js).append (']' :: rest)
      rw [List.append_assoc, List.cons_append, readItems,
        hread j (by simp) (hd j (by simp)) (by omega) (by simp [EndsValue])]
      simp only [readItemEnd_comma hbegins, hrest (by omega)]
      rfl

theorem readMembers_text {members : List (String × Json)} (hne : members ≠ [])
    (hread : ∀ m ∈ members, ReadsBack manner m.2) {depth : Nat}
    (hd : ∀ m ∈ members, m.2.depth ≤ depth) (rest : List Char) {fuel : Nat}
    (hf : 2 * (membersText members).length + 1 ≤ fuel) :
    readMembers manner fuel depth (membersText members ++ '\x7d' :: rest)
      = .ok (members.map fun m => (some m.1, m.2.reread), rest) := by
  induction members generalizing fuel with
  | nil => exact absurd rfl hne
  | cons m ms ih =>
    obtain ⟨fuel, rfl⟩ : ∃ n, fuel = n + 1 := ⟨fuel - 1, by omega⟩
    cases ms with
    | nil =>
      rw [membersText_singleton] at hf ⊢
      simp only [List.length_append, List.length_cons] at hf
      have hquoted : (quoted m.1).toList.length ≤ fuel := by omega
      obtain ⟨tail, htail, hname⟩ := readName manner m.1 hquoted
        (':' :: (m.2.compact.toList ++ '\x7d' :: rest))
      rw [List.append_assoc, List.cons_append, htail, readMembers]
      simp only [hname, readColon_colon]
      rw [hread m (by simp) (hd m (by simp)) (by omega) (by simp [EndsValue])]
      simp only [readMemberEnd_last]
      rfl
    | cons m' ms =>
      have hrest (hfuel : 2 * (membersText (m' :: ms)).length + 1 ≤ fuel) :=
        ih (by simp) (fun m hm => hread m (by simp [hm])) (fun m hm => hd m (by simp [hm])) hfuel
      rw [membersText_cons] at hf ⊢
      simp only [List.length_append, List.length_cons] at hf
      have hbegins := (begins_membersText m' ms).append ('\x7d' :: rest)
      have hquoted : (quoted m.1).toList.length ≤ fuel := by omega
      obtain ⟨tail, htail, hname⟩ := readName manner m.1 hquoted
        (':' :: (m.2.compact.toList ++ ',' :: (membersText (m' :: ms) ++ '\x7d' :: rest)))
      rw [List.append_assoc, List.cons_append, List.append_assoc, List.cons_append, htail,
        readMembers]
      simp only [hname, readColon_colon]
      rw [hread m (by simp) (hd m (by simp)) (by omega) (by simp [EndsValue])]
      simp only [readMemberEnd_comma hbegins, hrest (by omega)]
      rfl

theorem ReadsBack.float {x : Binary64} (h : Legible (.float x)) :
    ReadsBack manner (.float x) := by
  intro fuel depth rest _ hf hr
  rw [compact] at hf ⊢
  split at hf
  · next hfinite =>
    have hread : readNumber manner (x.text.toList ++ rest) = _ :=
      readNumber_append (h.float hfinite) hr.number
    obtain ⟨c, cs, hc, hstart⟩ := (Binary64.numeric_text hfinite).starts
    rw [if_pos hfinite]
    rw [hc] at hread hf ⊢
    obtain ⟨fuel, rfl⟩ : ∃ n, fuel = n + 1 := ⟨fuel - 1, by simp at hf; omega⟩
    rw [List.cons_append, readValue_number hstart, ← List.cons_append, hread]
    rfl
  · next hfinite =>
    obtain ⟨fuel, rfl⟩ : ∃ n, fuel = n + 1 := ⟨fuel - 1, by simp at hf; omega⟩
    have hnull : (parse "null").toOption = some .null := rfl
    rw [if_neg hfinite, reread, compact, if_neg hfinite, hnull]
    rfl

theorem ReadsBack.arr {items : List Json} (h : Legible (.arr items))
    (hread : ∀ j ∈ items, ReadsBack manner j) : ReadsBack manner (.arr items) := by
  intro fuel depth rest hd hf _
  rw [compact_arr] at hf ⊢
  simp only [List.length_cons, List.length_append] at hf
  obtain ⟨fuel, rfl⟩ : ∃ n, fuel = n + 1 := ⟨fuel - 1, by omega⟩
  obtain ⟨depth, rfl⟩ : ∃ n, depth = n + 1 := ⟨depth - 1, by simp [Json.depth] at hd; omega⟩
  rw [List.cons_append, List.append_assoc, readValue, skipSpace_cons (by decide)]
  cases items with
  | nil => rfl
  | cons j js =>
    have hlegible := h.items
    have hdepth : ∀ k ∈ j :: js, k.depth ≤ depth :=
      itemsDepth_le.1 (by simpa [Json.depth] using hd)
    have hfuel : 2 * (itemsText (j :: js)).length + 1 ≤ fuel := by omega
    have hitems := readItems_text (List.cons_ne_nil j js) hlegible hread hdepth rest hfuel
    -- The reader first looks whether the list is closed at once, which no item begins with.
    obtain ⟨c, cs, hc, hspace, hclose, -⟩ :=
      (begins_itemsText (hlegible j (by simp)) js).append (']' :: rest)
    simp only [List.cons_append, List.nil_append]
    rw [hc] at hitems ⊢
    simp only [skipSpace_cons hspace]
    rw [if_neg (by simp)]
    split
    · next heq => cases heq
    · next heq => exact absurd (List.cons.inj heq).1 hclose
    · rw [Nat.add_sub_cancel, hitems, reread, rereadItems_eq]
      rfl

theorem ReadsBack.obj {members : List (String × Json)}
    (hread : ∀ m ∈ members, ReadsBack manner m.2) : ReadsBack manner (.obj members) := by
  intro fuel depth rest hd hf _
  rw [compact_obj] at hf ⊢
  simp only [List.length_cons, List.length_append] at hf
  obtain ⟨fuel, rfl⟩ : ∃ n, fuel = n + 1 := ⟨fuel - 1, by omega⟩
  obtain ⟨depth, rfl⟩ : ∃ n, depth = n + 1 := ⟨depth - 1, by simp [Json.depth] at hd; omega⟩
  rw [List.cons_append, List.append_assoc, readValue, skipSpace_cons (by decide)]
  cases members with
  | nil => rfl
  | cons m ms =>
    have hdepth : ∀ n ∈ m :: ms, n.2.depth ≤ depth :=
      membersDepth_le.1 (by simpa [Json.depth] using hd)
    have hfuel : 2 * (membersText (m :: ms)).length + 1 ≤ fuel := by omega
    have hmembers := readMembers_text (List.cons_ne_nil m ms) hread hdepth rest hfuel
    obtain ⟨c, cs, hc, hspace, -, hclose⟩ := (begins_membersText m ms).append ('\x7d' :: rest)
    simp only [List.cons_append, List.nil_append]
    rw [hc] at hmembers ⊢
    simp only [skipSpace_cons hspace]
    rw [if_neg (by simp)]
    split
    · next heq => cases heq
    · next heq => exact absurd (List.cons.inj heq).1 hclose
    · rw [Nat.add_sub_cancel, hmembers]
      simp only [Except.map, objectOf_named, nested, Nat.succ_ne_zero, if_false, reread]

theorem readsBack {j : Json} (h : Legible j) : ReadsBack manner j := by
  induction j using inductionOn with
  | null =>
    intro fuel depth rest _ hf _
    obtain ⟨fuel, rfl⟩ : ∃ n, fuel = n + 1 := ⟨fuel - 1, by simp [compact] at hf; omega⟩
    rfl
  | bool b =>
    intro fuel depth rest _ hf _
    cases b <;>
      obtain ⟨fuel, rfl⟩ : ∃ n, fuel = n + 1 := ⟨fuel - 1, by simp [compact] at hf; omega⟩ <;>
      rfl
  | unreadable => exact absurd h.readable (by decide)
  | int n =>
    intro fuel depth rest _ hf hr
    have hread : readNumber manner ((toString n).toList ++ rest) = .ok (.int n, rest) :=
      readNumber_int h.int.1 h.int.2 hr.number
    obtain ⟨c, cs, hc, hstart⟩ := toString_int_starts n
    simp only [compact, hc, List.cons_append] at hread hf ⊢
    obtain ⟨fuel, rfl⟩ : ∃ n, fuel = n + 1 := ⟨fuel - 1, by simp at hf; omega⟩
    rw [readValue_number hstart, hread]
    rfl
  | float x => exact ReadsBack.float h
  | str s =>
    intro fuel depth rest _ hf _
    rw [compact] at hf ⊢
    obtain ⟨fuel, rfl⟩ : ∃ n, fuel = n + 1 := ⟨fuel - 1, by simp [toList_quoted] at hf; omega⟩
    have hlen : 2 ≤ (quoted s).toList.length := by simp [toList_quoted]
    have hquoted : (quoted s).toList.length ≤ fuel := by omega
    obtain ⟨tail, htail, hname⟩ := readName manner s hquoted rest
    rw [htail, readValue, skipSpace_cons (by decide)]
    simp only [hname]
    rfl
  | arr items ih => exact ReadsBack.arr h fun j hj => ih j hj (h.items j hj)
  | obj members ih => exact ReadsBack.obj fun m hm => ih m hm (h.members m hm)

/-- What is read from the compact text of a value. -/
theorem parseWithin_compact {j : Json} (h : Legible j) {depth : Nat} (hd : j.depth ≤ depth) :
    parseWithin manner depth j.compact = .ok j.reread := by
  have hread : readValue manner (2 * j.compact.toList.length + 2) depth (j.compact.toList ++ []) =
      .ok (j.reread, []) := readsBack h hd (by omega) (by simp [EndsValue])
  rw [List.append_nil] at hread
  simp only [parseWithin, hread, bind, Except.bind]
  rfl

/-- What is made of the compact text of a value. -/
theorem parseAs?_compact {α : Type} {f : Json → Option α} {j : Json} (h : Legible j)
    (hd : j.depth ≤ maxDepth) : parseAs? f j.compact = f j.reread := by
  rw [parseAs?, parseWithin_compact h hd]
  rfl

/-! ### Values that are read as they are written -/

theorem reread_arr {items : List Json} :
    reread (.arr items) = .arr items ↔ ∀ j ∈ items, j.reread = j := by
  rw [reread, rereadItems_eq, Json.arr.injEq]
  simpa using List.map_inj_left (f := reread) (g := id) (l := items)

theorem reread_obj {members : List (String × Json)} :
    reread (.obj members) = .obj members ↔ ∀ m ∈ members, m.2.reread = m.2 := by
  rw [reread, rereadMembers_eq, Json.obj.injEq]
  have h := List.map_inj_left (f := fun m : String × Json => (m.1, m.2.reread)) (g := id)
    (l := members)
  rw [List.map_id] at h
  rw [h]
  exact ⟨fun h m hm => congrArg Prod.snd (h m hm), fun h m hm => Prod.ext rfl (h m hm)⟩

theorem written_of_reread {j : Json} (h : j.reread = j) : every isWritten j = true := by
  induction j using inductionOn with
  | arr items ih => exact every_arr.2 ⟨rfl, fun j hj => ih j hj (reread_arr.1 h j hj)⟩
  | obj members ih => exact every_obj.2 ⟨rfl, fun m hm => ih m hm (reread_obj.1 h m hm)⟩
  | float x =>
    rw [reread] at h
    show (parse (Json.float x).compact).isOk = true
    cases hp : parse (Json.float x).compact with
    | ok j => rfl
    | error fault => simp [hp, Except.toOption] at h
  | _ => rfl

theorem Ordered.isReadable {j : Json} (h : j.Ordered) : j.isReadable = true := by
  induction j using inductionOn with
  | arr items ih => exact itemsReadable_iff.2 fun j hj => ih j hj ((every_arr.1 h).2 j hj)
  | obj members ih => exact membersReadable_iff.2 fun m hm => ih m hm ((every_obj.1 h).2 m hm)
  | unreadable => exact absurd h (by decide)
  | _ => rfl

end DurableWorkflow.Json
