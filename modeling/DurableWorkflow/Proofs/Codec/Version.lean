import DurableWorkflow.Proofs.Codec.Basic
import DurableWorkflow.Proofs.Text.Digits
import DurableWorkflow.Version

/-!
# Versions read back

A version is valid if its numbers fit 64 bits and its labels are segments with points between them.
The text of a valid version is read as that version, and only valid versions are read.
-/

namespace DurableWorkflow.Version

open Text

/-! ### Valid versions -/

/-- Letters, digits and hyphens; in a pre-release a number has no zero in front. -/
structure IsSegment (part : Part) (cs : List Char) : Prop where
  nonempty : cs ≠ []
  chars : ∀ c ∈ cs, isSegmentChar c = true
  zero : part = .pre → (∀ c ∈ cs, c.isDigit = true) → 1 < cs.length → cs.head? ≠ some '0'

/-- Nothing, or segments with points between them. -/
def IsLabel (part : Part) (s : String) : Prop :=
  s = "" ∨ ∃ segments : List (List Char),
    segments ≠ [] ∧ (∀ cs ∈ segments, IsSegment part cs) ∧ s.toList = ['.'].intercalate segments

structure Valid (v : Version) : Prop where
  major : v.major < twoTo 64
  minor : v.minor < twoTo 64
  patch : v.patch < twoTo 64
  pre : IsLabel .pre v.pre
  build : IsLabel .build v.build

/-! ### Numbers -/

theorem readDigits_toDigits {part : Part} {n : Nat} (h : n < twoTo 64) (cs : List Char) :
    readDigits part 0 0 (Nat.toDigits 10 n ++ cs)
      = readDigits part (Nat.toDigits 10 n).length n cs := by
  induction n using Nat.strongRecOn generalizing cs with
  | ind n ih =>
    by_cases hn : n < 10
    · have hdigit : n.digitChar.isDigit = true :=
        isDigit_of_mem_toDigits (n := n) (by simp [Nat.toDigits_of_lt_base hn])
      simp [Nat.toDigits_of_lt_base hn, readDigits, hdigit, Nat.toNat_digitChar_sub_48_of_lt_ten hn,
        h]
    · -- the last digit is read after those of `n / 10`
      have hdigit : (n % 10).digitChar.isDigit = true :=
        isDigit_of_mem_toDigits (n := n % 10)
          (by simp [Nat.toDigits_of_lt_base (Nat.mod_lt n (by decide : 0 < 10))])
      have hvalue : 10 * (n / 10) + ((n % 10).digitChar.toNat - 48) = n := by
        rw [Nat.toNat_digitChar_sub_48_of_lt_ten (Nat.mod_lt n (by decide))]
        omega
      have hpos : n / 10 ≠ 0 := by omega
      rw [Nat.toDigits_of_base_le (by decide) (by omega), List.append_assoc,
        ih (n / 10) (by omega) (by omega)]
      simp [readDigits, hdigit, hpos, hvalue, h]

theorem readNumber_toDigits {part : Part} {n : Nat} (h : n < twoTo 64) (cs : List Char)
    (hs : Stops Char.isDigit cs) : readNumber part (Nat.toDigits 10 n ++ cs) = .ok (n, cs) := by
  have hread : readDigits part (Nat.toDigits 10 n).length n cs
      = .ok ((Nat.toDigits 10 n).length, n, cs) := by
    cases cs with
    | nil => rfl
    | cons c cs => simp [readDigits, stops_cons.1 hs]
  simp [readNumber, readDigits_toDigits h, hread, Nat.length_toDigits_pos, bind, Except.bind, pure,
    Except.pure]

theorem readDigits_lt {part : Part} {count n : Nat} {cs : List Char} {r : Nat × Nat × List Char}
    (hn : n < twoTo 64) (h : readDigits part count n cs = .ok r) : r.2.1 < twoTo 64 := by
  induction cs generalizing count n with
  | nil =>
    cases h
    exact hn
  | cons c cs ih =>
    simp only [readDigits] at h
    split at h
    · cases h
      exact hn
    split at h
    · cases h
    split at h
    next hm => exact ih hm h
    · cases h

theorem readNumber_lt {part : Part} {cs : List Char} {r : Nat × List Char}
    (h : readNumber part cs = .ok r) : r.1 < twoTo 64 := by
  unfold readNumber at h
  cases hd : readDigits part 0 0 cs with
  | error e => simp [hd, bind, Except.bind] at h
  | ok d =>
    have := readDigits_lt (Nat.two_pow_pos 64) hd
    simp only [hd, bind, Except.bind, pure, Except.pure] at h
    split at h
    · cases h
      exact this
    · split at h <;> cases h

/-! ### Labels -/

theorem length_le_intercalate (segments : List (List Char)) :
    segments.length ≤ (['.'].intercalate segments).length + 1 := by
  induction segments with
  | nil => simp
  | cons g gs ih =>
    cases gs with
    | nil => simp
    | cons g' gs =>
      simp only [List.intercalate_cons_cons, List.length_append, List.length_cons, List.length_nil]
        at ih ⊢
      omega

/-- What may follow a label. -/
def EndsLabel (cs : List Char) : Prop := Stops (fun c => isSegmentChar c || c == '.') cs

theorem EndsLabel.stops {cs : List Char} (h : EndsLabel cs) : Stops isSegmentChar cs := by
  cases cs with
  | nil => simp
  | cons c cs =>
    have : (isSegmentChar c || c == '.') = false := stops_cons.1 h
    simp only [Bool.or_eq_false_iff] at this
    simpa using this.1

theorem readSegments_intercalate {part : Part} {segments : List (List Char)} {rest : List Char}
    (hr : EndsLabel rest) : ∀ {fuel : Nat} {done : List Char}, segments ≠ [] →
    (∀ cs ∈ segments, IsSegment part cs) → segments.length ≤ fuel →
    readSegments part fuel done (['.'].intercalate segments ++ rest)
      = .ok (String.ofList (done.reverse ++ ['.'].intercalate segments), rest) := by
  induction segments with
  | nil => exact fun h => absurd rfl h
  | cons g gs ih =>
    intro fuel done _ hg hf
    obtain ⟨fuel, rfl⟩ : ∃ n, fuel = n + 1 := ⟨fuel - 1, by simp at hf; omega⟩
    have hseg := hg g (by simp)
    have hempty : g.isEmpty = false := by simpa using hseg.nonempty
    have hzero : (decide (part = .pre) && g.all Char.isDigit && decide (g.length > 1)
        && g.head? == some '0') = false := by
      refine Bool.eq_false_iff.2 fun hc => ?_
      simp only [Bool.and_eq_true, decide_eq_true_eq, beq_iff_eq, List.all_eq_true] at hc
      exact hseg.zero hc.1.1.1 hc.1.1.2 hc.1.2 hc.2
    cases gs with
    | nil =>
      simp only [List.intercalate_singleton]
      rw [readSegments, takeWhile_append hseg.chars hr.stops, dropWhile_append hseg.chars hr.stops]
      simp only [hempty, hzero, Bool.false_eq_true, if_false]
      cases rest with
      | nil => simp
      | cons c rest =>
        have hc : (isSegmentChar c || c == '.') = false := stops_cons.1 hr
        have hdot : c ≠ '.' := by
          rintro rfl
          simp at hc
        split
        · next heq => exact absurd (List.cons.inj heq).1 hdot
        · simp
    | cons g' gs =>
      have hstop : Stops isSegmentChar ('.' :: (['.'].intercalate (g' :: gs) ++ rest)) := by
        simp
        decide
      have hsplit : ['.'].intercalate (g :: g' :: gs) ++ rest
          = g ++ '.' :: (['.'].intercalate (g' :: gs) ++ rest) := by
        simp [List.intercalate_cons_cons]
      rw [hsplit, readSegments, takeWhile_append hseg.chars hstop,
        dropWhile_append hseg.chars hstop]
      simp only [hempty, hzero, Bool.false_eq_true, if_false]
      rw [ih (by simp) (fun cs hcs => hg cs (by simp [hcs])) (by simp at hf ⊢; omega)]
      simp [List.intercalate_cons_cons]

theorem readSegments_label {part : Part} {fuel : Nat} {done cs : List Char}
    {r : String × List Char} (h : readSegments part fuel done cs = .ok r) (hr : r.1 ≠ "") :
    ∃ segments : List (List Char), segments ≠ [] ∧ (∀ g ∈ segments, IsSegment part g) ∧
      r.1 = String.ofList (done.reverse ++ ['.'].intercalate segments) := by
  induction fuel generalizing done cs with
  | zero => cases h
  | succ fuel ih =>
    rw [readSegments] at h
    split at h
    · split at h
      · cases h
        exact absurd rfl hr
      · cases h
    next hempty =>
    split at h
    · cases h
    next hzero =>
    have hseg : IsSegment part (cs.takeWhile isSegmentChar) :=
      { nonempty := by simpa using hempty
        chars := fun c hc => List.all_eq_true.1 List.all_takeWhile c hc
        zero := fun hp hd hl h0 => hzero (by simp [hp, hl, h0, List.all_eq_true.2 hd]) }
    split at h
    · obtain ⟨gs, hne, hgs, hs⟩ := ih h
      refine ⟨cs.takeWhile isSegmentChar :: gs, by simp, ?_, ?_⟩
      · simpa using ⟨hseg, hgs⟩
      · simp [hs, List.intercalate_cons_of_ne_nil hne]
    · cases h
      exact ⟨[cs.takeWhile isSegmentChar], by simp, by simpa using hseg, by simp⟩

theorem IsLabel.segments {part : Part} {s : String} (h : IsLabel part s) (hs : s ≠ "") :
    ∃ segments : List (List Char),
      segments ≠ [] ∧ (∀ cs ∈ segments, IsSegment part cs) ∧ s.toList = ['.'].intercalate segments :=
  h.resolve_left hs

/-- How a label is written after its mark. -/
def labelText (mark : String) (s : String) : String := if s.isEmpty then "" else mark ++ s

theorem readLabel_text {part : Part} (mark : Char) {s : String} (h : IsLabel part s)
    {rest : List Char} (hr : EndsLabel rest) (hm : Stops (· == mark) rest) :
    readLabel part mark ((labelText (String.singleton mark) s).toList ++ rest)
      = .ok (!s.isEmpty, s, rest) := by
  by_cases hs : s = ""
  · subst hs
    cases rest with
    | nil => rfl
    | cons c rest =>
      have hc : c ≠ mark := by simpa using hm
      simp [labelText, readLabel, hc]
  · obtain ⟨segments, hne, hseg, hlist⟩ := h.segments hs
    have hlen : segments.length ≤ s.toList.length + rest.length + 1 := by
      have := length_le_intercalate segments
      rw [hlist]
      omega
    have hread : readSegments part (s.toList.length + rest.length + 1) [] (s.toList ++ rest)
        = .ok (s, rest) := by
      rw [hlist] at hlen ⊢
      rw [readSegments_intercalate hr hne hseg hlen, List.reverse_nil, List.nil_append, ← hlist,
        String.ofList_toList]
    simp [labelText, readLabel, hs, hread, bind, Except.bind, pure, Except.pure]

theorem readLabel_isLabel {part : Part} {mark : Char} {cs : List Char}
    {r : Bool × String × List Char} (h : readLabel part mark cs = .ok r) :
    IsLabel part r.2.1 := by
  unfold readLabel at h
  split at h
  · split at h
    · next rest _ =>
      cases hs : readSegments part (rest.length + 1) [] rest with
      | error e => simp [hs, bind, Except.bind] at h
      | ok s =>
        simp only [hs, bind, Except.bind, pure, Except.pure] at h
        split at h
        · cases h
        next hne =>
        cases h
        obtain ⟨segments, hseg⟩ := readSegments_label hs (by simpa using hne)
        exact .inr ⟨segments, hseg.1, hseg.2.1, by simp [hseg.2.2]⟩
    · cases h
      exact .inl rfl
  · cases h
    exact .inl rfl

/-! ### Versions -/

theorem toList_text (v : Version) : v.text.toList = Nat.toDigits 10 v.major ++ '.' ::
    (Nat.toDigits 10 v.minor ++ '.' :: (Nat.toDigits 10 v.patch ++
      ((labelText "-" v.pre).toList ++ ((labelText "+" v.build).toList ++ [])))) := by
  simp [text, labelText]

theorem endsLabel_labelText (s : String) : EndsLabel ((labelText "+" s).toList ++ []) := by
  unfold labelText
  split
  · simp [EndsLabel]
  · simp [EndsLabel]
    decide

theorem stops_labels (pre build : String) :
    Stops Char.isDigit ((labelText "-" pre).toList ++ ((labelText "+" build).toList ++ [])) := by
  unfold labelText
  split <;> split <;> simp

theorem stops_build (s : String) : Stops (· == '-') ((labelText "+" s).toList ++ []) := by
  unfold labelText
  split <;> simp

theorem parse_text {v : Version} (h : v.Valid) : parse v.text = .ok v := by
  have hempty : v.text.isEmpty = false := by
    simp [← String.toList_inj, toList_text]
  have hpre := readLabel_text '-' h.pre (endsLabel_labelText v.build) (stops_build v.build)
  have hnil : EndsLabel [] := by simp [EndsLabel]
  have hbuild := readLabel_text '+' h.build hnil (by simp)
  rw [parse, hempty, toList_text]
  simp only [Bool.false_eq_true, if_false, bind, Except.bind, pure, Except.pure,
    readNumber_toDigits h.major ('.' :: _) (by simp),
    readNumber_toDigits h.minor ('.' :: _) (by simp),
    readNumber_toDigits h.patch _ (stops_labels v.pre v.build), readDot]
  simp only [show "-" = String.singleton '-' from rfl, show "+" = String.singleton '+' from rfl] at *
  simp only [hpre, hbuild]

theorem valid_of_parse {s : String} {v : Version} (h : parse s = .ok v) : v.Valid := by
  unfold parse at h
  split at h
  · cases h
  obtain ⟨⟨major, cs⟩, hmajor, h⟩ := ok_of_bind h
  obtain ⟨_, _, h⟩ := ok_of_bind h
  obtain ⟨⟨minor, cs⟩, hminor, h⟩ := ok_of_bind h
  obtain ⟨_, _, h⟩ := ok_of_bind h
  obtain ⟨⟨patch, cs⟩, hpatch, h⟩ := ok_of_bind h
  obtain ⟨⟨hasPre, pre, cs⟩, hpre, h⟩ := ok_of_bind h
  obtain ⟨⟨hasBuild, build, cs⟩, hbuild, h⟩ := ok_of_bind h
  simp only at h
  split at h
  · cases h
    exact {
      major := readNumber_lt hmajor
      minor := readNumber_lt hminor
      patch := readNumber_lt hpatch
      pre := readLabel_isLabel hpre
      build := readLabel_isLabel hbuild }
  · cases h

theorem ofJson?_toJson {v : Version} (h : v.Valid) : ofJson? v.toJson = some v := by
  simp only [ofJson?, toJson, Json.toText?, Option.bind_some, parse_text h]
  rfl

theorem valid_of_ofJson? {j : Json} {v : Version} (h : ofJson? j = some v) : v.Valid := by
  obtain ⟨s, _, hs⟩ := Option.bind_eq_some_iff.1 h
  cases hp : parse s with
  | error e => simp [hp, Except.toOption] at hs
  | ok w =>
    simp only [hp, Except.toOption, Option.some.injEq] at hs
    exact hs ▸ valid_of_parse hp

end DurableWorkflow.Version
