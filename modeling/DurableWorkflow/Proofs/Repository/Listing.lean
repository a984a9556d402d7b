import DurableWorkflow.Proofs.Repository.Refinement
import DurableWorkflow.Proofs.Text.Digits

/-!
# Listings of a table

A table puts its rows in the order of two texts, the one of the time of creation and the one of the
identifier. Identifiers are in the order of their texts. So are times with a year of four digits,
cut to the microsecond (`microsText_lt_iff`): what is finer is not in the text. A table therefore
lists what memory lists, but in the order of times that are cut. It is the order of memory exactly
where no two instances of one microsecond are the other way round (`Mirrors.select_eq_iff`).
-/

namespace DurableWorkflow

open Text

/-! ### Identifiers -/

namespace Uuid

/-- Digits that lie higher are not written. -/
theorem hexDigits_mod (count n : Nat) : hexDigits count (n % 16 ^ count) = hexDigits count n := by
  induction count generalizing n with
  | zero => rfl
  | succ count ih =>
    rw [hexDigits, hexDigits, Nat.pow_succ', Nat.mod_mul_right_div_self, ih, hexDigit, hexDigit,
      Nat.mod_mul_right_mod]

theorem hexDigits_lt_hexDigits {count m n : Nat} (hm : m < 16 ^ count) (hn : n < 16 ^ count) :
    hexDigits count m < hexDigits count n ↔ m < n := by
  induction count generalizing m n with
  | zero =>
    rw [Nat.pow_zero] at hm hn
    simp [hexDigits]
    omega
  | succ count ih =>
    rw [Nat.pow_succ'] at hm hn
    have hlength : (hexDigits count (m / 16)).length = (hexDigits count (n / 16)).length := by
      rw [length_hexDigits, length_hexDigits]
    have hlt := ih (m := m / 16) (n := n / 16) (by omega) (by omega)
    have hgt := ih (m := n / 16) (n := m / 16) (by omega) (by omega)
    have hlast : [hexDigit m] < [hexDigit n] ↔ m % 16 < n % 16 := by
      rw [List.cons_lt_cons_iff, hexDigit_lt_hexDigit]
      simp
    rw [hexDigits, hexDigits, append_lt_append hlength, hlt, hlast]
    constructor
    · rintro (h | ⟨hsame, h⟩)
      · omega
      · -- rows that are the same are not in order
        rw [hsame] at hlt hgt
        have := mt hlt.2 (List.lt_irrefl _)
        have := mt hgt.2 (List.lt_irrefl _)
        omega
    · intro h
      by_cases hsame : m / 16 = n / 16
      · exact .inr ⟨by rw [hsame], by omega⟩
      · exact .inl (by omega)

/-- So many digits of base sixteen. -/
def hexField (width : Nat) (mark : List Char) : Field where
  write := hexDigits width
  width := width
  bound := 16 ^ width
  mark := mark
  length_write n _ := length_hexDigits width n
  write_lt_write _ hm _ hn := hexDigits_lt_hexDigits hm hn

/-- The groups of the text. -/
def fields : List Field :=
  [hexField 8 ['-'], hexField 4 ['-'], hexField 4 ['-'], hexField 4 ['-'], hexField 12 []]

/-- What is written in the groups. -/
def numbers (u : Uuid) : List Nat :=
  [u.bits.toNat / 2 ^ 96 % 16 ^ 8, u.bits.toNat / 2 ^ 80 % 16 ^ 4, u.bits.toNat / 2 ^ 64 % 16 ^ 4,
    u.bits.toNat / 2 ^ 48 % 16 ^ 4, u.bits.toNat % 16 ^ 12]

theorem fit_numbers (u : Uuid) : Fit fields u.numbers := by
  have hmod (n width : Nat) (mark : List Char) : n % 16 ^ width < (hexField width mark).bound :=
    Nat.mod_lt _ (Nat.pow_pos (by decide))
  exact .cons (hmod ..) (.cons (hmod ..) (.cons (hmod ..) (.cons (hmod ..) (.cons (hmod ..) .nil))))

theorem toList_text_written (u : Uuid) : u.text.toList = written fields u.numbers := by
  simp only [toList_text, groups, fields, numbers, written, hexField, hexDigits_mod]
  simp

/-- The number of an identifier is in the order of what is written in the groups. -/
theorem numbers_lt_numbers (u v : Uuid) : u.numbers < v.numbers ↔ u.bits.toNat < v.bits.toNat := by
  have hu := u.bits.isLt
  have hv := v.bits.isLt
  simp only [numbers]
  generalize u.bits.toNat = m at hu ⊢
  generalize v.bits.toNat = n at hv ⊢
  have hall := mod_lt_mod_iff (a := 2 ^ 96) (b := 16 ^ 8) (c := 2 ^ 128) rfl (by decide) m n
  rw [Nat.mod_eq_of_lt hu, Nat.mod_eq_of_lt hv] at hall
  have hlast : (16 : Nat) ^ 12 = 2 ^ 48 := rfl
  simp only [List.cons_lt_cons_iff, List.lt_irrefl, and_false, or_false, hlast]
  rw [hall, mod_lt_mod_iff (a := 2 ^ 80) (b := 16 ^ 4) (c := 2 ^ 96) rfl (by decide),
    mod_lt_mod_iff (a := 2 ^ 64) (b := 16 ^ 4) (c := 2 ^ 80) rfl (by decide),
    mod_lt_mod_iff (a := 2 ^ 48) (b := 16 ^ 4) (c := 2 ^ 64) rfl (by decide)]

theorem text_lt_text (u v : Uuid) : u.text < v.text ↔ u.bits.toNat < v.bits.toNat := by
  rw [String.lt_iff, toList_text_written, toList_text_written,
    written_lt_written u.fit_numbers v.fit_numbers, numbers_lt_numbers]

theorem le_eq_text (u v : Uuid) : u.le v = !(decide (v.text < u.text)) := by
  rw [le, ← decide_not, decide_eq_decide, text_lt_text, Nat.not_lt]

end Uuid

/-! ### Times to the microsecond -/

namespace Timestamp

open Text

/-- The year has four digits and no sign. -/
def FourDigits (t : Timestamp) : Prop := 0 ≤ t.date.year ∧ t.date.year ≤ 9999

/-- What is finer than a microsecond is cut. -/
def cut (t : Timestamp) : Timestamp := { t with nanos := t.nanos / 1000 * 1000 }

/-- The parts of the text. -/
def microsFields : List Field :=
  [.decimal 4 ['-'], .decimal 2 ['-'], .decimal 2 ['T'], .decimal 2 [':'], .decimal 2 [':'],
    .decimal 2 ['.'], .decimal 6 ['Z']]

/-- What is written in the parts. -/
def microsNumbers (t : Timestamp) : List Nat :=
  [t.date.year.toNat, t.date.month, t.date.day, t.daySecond / 3600, t.daySecond / 60 % 60,
    t.minuteSecond.1, t.minuteSecond.2 / 1000]

theorem fit_microsNumbers {t : Timestamp} (h : t.Valid) (hyear : t.FourDigits) :
    Fit microsFields t.microsNumbers := by
  have hdate := isValid_date h
  simp only [Date.isValid, Bool.and_eq_true, decide_eq_true_eq] at hdate
  have hmonth := daysInMonth_le t.date.year t.date.month
  have hday := t.daySecond_lt
  obtain ⟨hsecond, hnanos, -⟩ := minuteSecond_spec h
  have hyear' : t.date.year.toNat < 10 ^ 4 := by
    have := hyear.2
    omega
  have hfraction : t.minuteSecond.2 / 1000 < 10 ^ 6 := by
    have : Nanos.perSecond = 1000 * 10 ^ 6 := rfl
    omega
  exact .cons hyear' <| .cons (show _ < 100 by omega) <| .cons (show _ < 100 by omega) <|
    .cons (show _ < 100 by omega) <| .cons (show _ < 100 by omega) <|
    .cons (show _ < 100 by omega) <| .cons hfraction .nil

theorem yearText_eq {year : Int} (h : 0 ≤ year ∧ year ≤ 9999) :
    yearText year = padded 4 year.toNat := by
  unfold yearText
  rw [if_pos (by simpa using h)]

theorem written_microsFields (year month day hour minute second micro : Nat) :
    written microsFields [year, month, day, hour, minute, second, micro] =
      (padded 4 year ++ "-" ++ padded 2 month ++ "-" ++ padded 2 day ++ "T" ++ padded 2 hour ++ ":"
        ++ padded 2 minute ++ ":" ++ padded 2 second ++ "." ++ padded 6 micro ++ "Z").toList := by
  simp [microsFields, written, Field.decimal]

theorem toList_microsText {t : Timestamp} (hyear : t.FourDigits) :
    t.microsText.toList = written microsFields t.microsNumbers := by
  have hfour : yearText (Date.ofDays (t.seconds / secondsPerDay)).year = _ := yearText_eq hyear
  rw [microsNumbers, written_microsFields]
  simp only [microsText, parts, hfour, minuteSecond, date, daySecond]

/-- Is it of an earlier microsecond? -/
def Sooner (a b : Timestamp) : Prop :=
  a.seconds < b.seconds ∨ a.seconds = b.seconds ∧ a.nanos / 1000 < b.nanos / 1000

theorem sooner_or_sooner {a b : Timestamp} : a.Sooner b ∨ a.cut = b.cut ∨ b.Sooner a := by
  simp only [Sooner, cut, mk.injEq]
  omega

/-- Within a day, what is sooner has the smaller hour, minute, second or microsecond. -/
theorem time_lt {a b : Timestamp} (ha : a.Valid) (hb : b.Valid)
    (h : a.daySecond < b.daySecond ∨ a.daySecond = b.daySecond ∧ a.nanos / 1000 < b.nanos / 1000) :
    [a.daySecond / 3600, a.daySecond / 60 % 60, a.minuteSecond.1, a.minuteSecond.2 / 1000] <
      [b.daySecond / 3600, b.daySecond / 60 % 60, b.minuteSecond.1, b.minuteSecond.2 / 1000] := by
  have hleap (t : Timestamp) (ht : t.Valid) (hnanos : Nanos.perSecond ≤ t.nanos) :
      t.daySecond % 60 = 59 := by
    have := ht.leap hnanos
    simp only [daySecond, secondsPerDay]
    omega
  have hleapa := hleap a ha
  have hleapb := hleap b hb
  have hhour (s : Nat) : s / 3600 = s / 60 / 60 := by rw [Nat.div_div_eq_div_mul]
  simp only [List.cons_lt_cons_iff, List.lt_irrefl, and_false, or_false, hhour, minuteSecond]
  have hsecond : Nanos.perSecond = 1000000000 := rfl
  split <;> split <;> omega

theorem microsNumbers_lt {a b : Timestamp} (ha : a.Valid) (hb : b.Valid) (hyear : a.FourDigits)
    (h : a.Sooner b) : a.microsNumbers < b.microsNumbers := by
  rcases Int.lt_trichotomy (a.seconds / secondsPerDay) (b.seconds / secondsPerDay) with
    hlt | hsame | hgt
  · have hdate : a.date.Before b.date := Date.ofDays_before hlt
    have := hyear.1
    simp only [microsNumbers, List.cons_lt_cons_iff]
    unfold Date.Before at hdate
    omega
  · have hdate : a.date = b.date := by rw [date, hsame, date]
    have htime := time_lt ha hb (by
      simp only [Sooner, daySecond, secondsPerDay] at *
      omega)
    rw [microsNumbers, microsNumbers, hdate]
    simpa [List.cons_lt_cons_iff] using htime
  · simp only [Sooner, secondsPerDay] at *
    omega

/-- The text keeps the microsecond. -/
theorem microsText_cut (t : Timestamp) : t.cut.microsText = t.microsText := by
  have hsecond : Nanos.perSecond = 1000000000 := rfl
  have hparts : t.cut.parts.1 = t.parts.1 ∧ t.cut.parts.2 / 1000 = t.parts.2 / 1000 := by
    simp only [parts, cut]
    by_cases hleap : t.nanos ≥ Nanos.perSecond
    · have : t.nanos / 1000 * 1000 ≥ Nanos.perSecond := by omega
      simp only [hleap, this, if_true, true_and]
      omega
    · have : ¬ t.nanos / 1000 * 1000 ≥ Nanos.perSecond := by omega
      simp only [hleap, this, if_false, true_and]
      omega
  simp only [microsText, hparts]

theorem microsText_lt {a b : Timestamp} (ha : a.Valid) (hb : b.Valid) (hya : a.FourDigits)
    (hyb : b.FourDigits) (h : a.Sooner b) : a.microsText < b.microsText := by
  rw [String.lt_iff, toList_microsText hya, toList_microsText hyb,
    written_lt_written (fit_microsNumbers ha hya) (fit_microsNumbers hb hyb)]
  exact microsNumbers_lt ha hb hya h

/-- Texts are in the order of times, to the microsecond. -/
theorem microsText_lt_iff {a b : Timestamp} (ha : a.Valid) (hb : b.Valid) (hya : a.FourDigits)
    (hyb : b.FourDigits) : a.microsText < b.microsText ↔ a.Sooner b := by
  refine ⟨fun h => ?_, microsText_lt ha hb hya hyb⟩
  rcases sooner_or_sooner (a := a) (b := b) with hsooner | hsame | hlater
  · exact hsooner
  · rw [← microsText_cut a, hsame, microsText_cut] at h
    exact absurd h (String.lt_irrefl _)
  · exact absurd h (String.lt_asymm (microsText_lt hb ha hyb hya hlater))

theorem microsText_eq_iff {a b : Timestamp} (ha : a.Valid) (hb : b.Valid) (hya : a.FourDigits)
    (hyb : b.FourDigits) : a.microsText = b.microsText ↔ a.cut = b.cut := by
  refine ⟨fun h => ?_, fun h => by rw [← microsText_cut, h, microsText_cut]⟩
  rcases sooner_or_sooner (a := a) (b := b) with hsooner | hsame | hlater
  · have := microsText_lt ha hb hya hyb hsooner
    rw [h] at this
    exact absurd this (String.lt_irrefl _)
  · exact hsame
  · have := microsText_lt hb ha hyb hya hlater
    rw [h] at this
    exact absurd this (String.lt_irrefl _)

end Timestamp

/-! ### The order of instances -/

namespace Instance

theorem older_iff (a b : Instance) : a.older b = true ↔
    a.createdAt.seconds < b.createdAt.seconds ∨ a.createdAt.seconds = b.createdAt.seconds ∧
      (a.createdAt.nanos < b.createdAt.nanos ∨ a.createdAt.nanos = b.createdAt.nanos ∧
        a.id.bits.toNat ≤ b.id.bits.toNat) := by
  have hsame : a.createdAt = b.createdAt ↔ a.createdAt.seconds = b.createdAt.seconds ∧
      a.createdAt.nanos = b.createdAt.nanos := by
    rw [← Timestamp.mk.injEq]
  rw [older]
  split
  · next h =>
    have := hsame.1 h
    rw [Uuid.le, decide_eq_true_eq]
    omega
  · next h =>
    have := mt hsame.2 h
    rw [Timestamp.le_iff]
    omega

theorem older_trans (a b c : Instance) (hab : a.older b = true) (hbc : b.older c = true) :
    a.older c = true := by
  rw [older_iff] at *
  omega

theorem older_total (a b : Instance) : (a.older b || b.older a) = true := by
  rw [Bool.or_eq_true, older_iff, older_iff]
  omega

theorem older_self (a : Instance) : a.older a = true := by simpa using a.older_total a

theorem older_antisymm {a b : Instance} (hab : a.older b = true) (hba : b.older a = true) :
    a.id = b.id := by
  rw [older_iff] at *
  have hbits : a.id.bits.toNat = b.id.bits.toNat := by omega
  exact congrArg Uuid.mk (BitVec.eq_of_toNat_eq hbits)

/-- The instance with its time of creation cut to the microsecond. -/
def cut (s : Instance) : Instance := { s with createdAt := s.createdAt.cut }

end Instance

theorem Row.older_ofInstance {s t : Instance} (hs : s.createdAt.Valid) (ht : t.createdAt.Valid)
    (hys : s.createdAt.FourDigits) (hyt : t.createdAt.FourDigits) :
    (Row.ofInstance s).older (Row.ofInstance t) = s.cut.older t.cut := by
  have heq := Timestamp.microsText_eq_iff hs ht hys hyt
  have hlt := Timestamp.microsText_lt_iff hs ht hys hyt
  have hrows : (Row.ofInstance s).older (Row.ofInstance t) =
      if s.createdAt.microsText = t.createdAt.microsText then !(decide (t.id.text < s.id.text))
      else decide (s.createdAt.microsText < t.createdAt.microsText) := rfl
  have hcuts : s.cut.older t.cut = if s.createdAt.cut = t.createdAt.cut then s.id.le t.id
      else s.createdAt.cut.le t.createdAt.cut := rfl
  rw [hrows, hcuts, ← Uuid.le_eq_text]
  simp only [heq]
  split
  · rfl
  · next hne =>
    rw [Bool.eq_iff_iff, decide_eq_true_eq, hlt, Timestamp.le_iff]
    simp only [Timestamp.Sooner, Timestamp.cut, Timestamp.mk.injEq] at hne ⊢
    omega

/-! ### Listings -/

namespace Row

theorem mapM_ofInstance {instances : List Instance} (h : ∀ s ∈ instances, s.Lasting) :
    (instances.map ofInstance).mapM toInstance = .ok instances := by
  induction instances with
  | nil => rfl
  | cons s rest ih =>
    rw [List.map_cons, List.mapM_cons, toInstance_ofInstance (h s (by simp)),
      ih fun t ht => h t (by simp [ht])]
    rfl

end Row

namespace Memory

/-- Memory lists the oldest first. -/
theorem pairwise_select (m : Memory) (keep : Instance → Bool) :
    (m.select keep).Pairwise fun a b => a.older b = true :=
  List.pairwise_mergeSort Instance.older_trans Instance.older_total _

/-- Instances of one microsecond are in the order of their identifiers. -/
def Even (m : Memory) (keep : Instance → Bool) : Prop :=
  ∀ a ∈ m.instances, ∀ b ∈ m.instances, keep a = true → keep b = true →
    a.createdAt.cut = b.createdAt.cut → a.id.le b.id = true → a.older b = true

variable {m : Memory} {keep : Instance → Bool}

theorem mem_select {s : Instance} : s ∈ m.select keep ↔ s ∈ m.instances ∧ keep s = true := by
  rw [select, List.mem_mergeSort, List.mem_filter]

theorem eq_of_id {a b : Instance} (ha : a ∈ m.instances) (hb : b ∈ m.instances)
    (h : a.id = b.id) : a = b := by
  have hfind := find?_of_mem ha
  rw [h, find?_of_mem hb] at hfind
  exact (Option.some.inj hfind).symm

end Memory

namespace Instance

/-- Times that are cut are in order, apart from those of one microsecond. -/
theorem older_cut {a b : Instance} (h : a.createdAt.cut ≠ b.createdAt.cut) :
    a.cut.older b.cut = a.older b := by
  rw [Bool.eq_iff_iff, older_iff, older_iff]
  simp only [cut, Timestamp.cut, ne_eq, Timestamp.mk.injEq] at h ⊢
  omega

theorem older_cut_of_eq {a b : Instance} (h : a.createdAt.cut = b.createdAt.cut) :
    a.cut.older b.cut = a.id.le b.id := if_pos h

end Instance

namespace Table.Mirrors

variable {t : Table} {m : Memory} {keep : Row → Bool} {keep' : Instance → Bool}

/-- A table lists what memory lists, oldest to the microsecond first. -/
theorem select_eq (h : t.Mirrors m) (hyears : ∀ s ∈ m.instances, s.createdAt.FourDigits)
    (hkeep : ∀ s, keep (Row.ofInstance s) = keep' s) : t.select keep =
      .ok ((m.instances.filter keep').mergeSort fun a b => a.cut.older b.cut) := by
  have hfilter : t.rows.filter keep = (m.instances.filter keep').map Row.ofInstance := by
    rw [h.rows, List.filter_map, show keep ∘ Row.ofInstance = keep' from funext hkeep]
  have hstored {s : Instance} (hs : s ∈ m.instances.filter keep') : s ∈ m.instances :=
    (List.mem_filter.1 hs).1
  have hsort : ((m.instances.filter keep').map Row.ofInstance).mergeSort Row.older =
      ((m.instances.filter keep').mergeSort fun a b => a.cut.older b.cut).map Row.ofInstance :=
    (List.map_mergeSort fun a ha b hb => (Row.older_ofInstance
      (h.lasting a (hstored ha)).valid.createdAt (h.lasting b (hstored hb)).valid.createdAt
      (hyears a (hstored ha)) (hyears b (hstored hb))).symm).symm
  rw [Table.select, hfilter, hsort,
    Row.mapM_ofInstance fun s hs => h.lasting s (hstored (List.mem_mergeSort.1 hs))]

/-- It is the same list exactly if memory has instances of one microsecond in the order of their
identifiers. -/
theorem select_eq_iff (h : t.Mirrors m) (hyears : ∀ s ∈ m.instances, s.createdAt.FourDigits)
    (hkeep : ∀ s, keep (Row.ofInstance s) = keep' s) :
    t.select keep = .ok (m.select keep') ↔ m.Even keep' := by
  have hcut : ((m.instances.filter keep').mergeSort fun a b => a.cut.older b.cut).Pairwise
      fun a b => a.cut.older b.cut = true :=
    List.pairwise_mergeSort (fun a b c => Instance.older_trans a.cut b.cut c.cut)
      (fun a b => Instance.older_total a.cut b.cut) _
  have hperm : ((m.instances.filter keep').mergeSort fun a b => a.cut.older b.cut).Perm
      (m.select keep') := (List.mergeSort_perm _ _).trans (List.mergeSort_perm _ _).symm
  rw [h.select_eq hyears hkeep, Except.ok.injEq]
  constructor
  · intro hlists a ha b hb hkeepa hkeepb hmicro hle
    rw [hlists] at hcut
    -- of two in the list, one comes first, in the order of memory as in that of the table
    let R (x y : Instance) : Prop := x.cut.older y.cut = true → x.older y = true
    have hforth : (m.select keep').Pairwise R :=
      List.Pairwise.imp (S := R) (fun hxy _ => hxy) (m.pairwise_select keep')
    have hback : (m.select keep').Pairwise (flip R) := hcut.imp_of_mem fun {x y} hx hy hxy hyx => by
      have hid : x.id = y.id := Instance.older_antisymm (a := x.cut) (b := y.cut) hxy hyx
      rw [Memory.eq_of_id (Memory.mem_select.1 hx).1 (Memory.mem_select.1 hy).1 hid]
      exact y.older_self
    have hall := List.Pairwise.forall_of_forall_of_flip (fun x _ _ => x.older_self) hforth hback
    exact hall (Memory.mem_select.2 ⟨ha, hkeepa⟩) (Memory.mem_select.2 ⟨hb, hkeepb⟩)
      ((Instance.older_cut_of_eq hmicro).trans hle)
  · intro heven
    have hagree : ∀ a ∈ m.select keep', ∀ b ∈ m.select keep', a.cut.older b.cut = true →
        a.older b = true := by
      intro a ha b hb hab
      obtain ⟨ha, hkeepa⟩ := Memory.mem_select.1 ha
      obtain ⟨hb, hkeepb⟩ := Memory.mem_select.1 hb
      by_cases hmicro : a.createdAt.cut = b.createdAt.cut
      · exact heven a ha b hb hkeepa hkeepb hmicro (Instance.older_cut_of_eq hmicro ▸ hab)
      · rwa [Instance.older_cut hmicro] at hab
    have hsorted := hcut.imp_of_mem fun ha hb => hagree _ (hperm.subset ha) _ (hperm.subset hb)
    refine hperm.eq_of_pairwise (fun a b ha hb hab hba => ?_) hsorted (m.pairwise_select keep')
    exact Memory.eq_of_id (Memory.mem_select.1 (hperm.subset ha)).1 (Memory.mem_select.1 hb).1
      (Instance.older_antisymm hab hba)

/-- Of the waiting instances, both list the same in the same order exactly if those of one
microsecond are in the order of their identifiers in memory. -/
theorem listWaiting_eq_iff (h : t.Mirrors m)
    (hyears : ∀ s ∈ m.instances, s.createdAt.FourDigits) (signal : Option String) :
    (Table.repository.listWaiting signal t).1 = (Memory.repository.listWaiting signal m).1 ↔
      m.Even fun s => match signal with
        | some name => s.isWaitingFor name
        | none => s.status == .waiting :=
  h.select_eq_iff hyears (Row.waiting_ofInstance signal)

/-- So they do of the instances in a status. -/
theorem listByStatus_eq_iff (h : t.Mirrors m)
    (hyears : ∀ s ∈ m.instances, s.createdAt.FourDigits) (status : Status) :
    (Table.repository.listByStatus status t).1 = (Memory.repository.listByStatus status m).1 ↔
      m.Even fun s => s.status == status :=
  h.select_eq_iff hyears fun s => Status.text_beq s.status status

end Table.Mirrors

/-! ### Instances of one microsecond -/

namespace RepositoryCall

/-- An instance created so many nanoseconds after the start of the year 2020. -/
def createdAfter (nanos : Nat) (id : Nat) : Instance :=
  { resting with id := .ofNat id, createdAt := ⟨1577836800, nanos⟩ }

theorem lasting_createdAfter {nanos : Nat} (h : nanos < Nanos.perSecond) (id : Nat) :
    (createdAfter nanos id).Lasting where
  valid := { lasting_resting.valid with
    createdAt := {
      inRange := (by decide +kernel : Timestamp.inRange ⟨1577836800, 0⟩ = true)
      nanos := Nat.lt_of_lt_of_le h (by decide)
      leap := fun hle => absurd h (Nat.not_lt.2 hle) } }
  storable := {
    own := ⟨lasting_resting.storable.own.context, lasting_resting.storable.own.payload⟩
    exact := ⟨lasting_resting.storable.exact.context, lasting_resting.storable.exact.payload⟩
    contextDepth := lasting_resting.storable.contextDepth
    payloadDepth := lasting_resting.storable.payloadDepth }
  revision := lasting_resting.revision

/-- Two instances of one microsecond, of which the younger one has the smaller identifier. -/
def twins : Memory := ⟨[createdAfter 100 2, createdAfter 900 1], by decide⟩

/-- Memory lists the older one first, and a table the younger one. -/
theorem listWaiting_twins :
    (Memory.repository.listWaiting none twins).1 = .ok [createdAfter 100 2, createdAfter 900 1] ∧
      (Table.repository.listWaiting none ⟨twins.instances.map Row.ofInstance⟩).1 =
        .ok [createdAfter 900 1, createdAfter 100 2] := by
  have hmirrors : Table.Mirrors ⟨twins.instances.map Row.ofInstance⟩ twins := ⟨rfl, by
    simpa [twins] using ⟨lasting_createdAfter (by decide) 2, lasting_createdAfter (by decide) 1⟩⟩
  have hyears : ∀ s ∈ twins.instances, s.createdAt.FourDigits := by
    simp only [twins, List.mem_cons, List.not_mem_nil, or_false]
    rintro s (rfl | rfl) <;> exact ⟨by decide, by decide⟩
  constructor
  · have holder : (createdAfter 100 2).older (createdAfter 900 1) = true := by decide +kernel
    show Except.ok ([createdAfter 100 2, createdAfter 900 1].mergeSort Instance.older) = _
    simp [List.mergeSort, holder]
  · have holder : (createdAfter 100 2).cut.older (createdAfter 900 1).cut = false := by
      decide +kernel
    refine (hmirrors.select_eq hyears (Row.waiting_ofInstance none)).trans ?_
    show Except.ok ([createdAfter 100 2, createdAfter 900 1].mergeSort _) = _
    simp [List.mergeSort, holder]

end RepositoryCall

end DurableWorkflow
