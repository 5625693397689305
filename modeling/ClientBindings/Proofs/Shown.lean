import ClientBindings.Data.Display
import ClientBindings.Proofs.Identifier
import ClientBindings.Proofs.Json.Spelling

/-! The characters of what is shown. Numbers, truth values and moments are letters, digits and a few marks. -/

namespace ClientBindings

namespace Text

variable {c : Char} {cs ds : List Char}

/-- Letters, digits and the marks of numbers and of calls. -/
def isPlain (c : Char) : Bool := c.isAlphanum || ['+', '-', '.', ',', '=', '(', ')', ' '].contains c

def Plain (cs : List Char) : Prop := ∀ c ∈ cs, isPlain c = true

instance : DecidablePred Plain := List.decidableBAll _

@[simp] theorem plain_nil : Plain [] := List.forall_mem_nil _

@[simp] theorem plain_cons : Plain (c :: cs) ↔ isPlain c = true ∧ Plain cs := List.forall_mem_cons

@[simp] theorem plain_append : Plain (cs ++ ds) ↔ Plain cs ∧ Plain ds := List.forall_mem_append

theorem Plain.mono (h : Plain ds) (hsub : cs ⊆ ds) : Plain cs := fun c hc => h c (hsub hc)

theorem plain_join {separator : List Char} (hseparator : Plain separator) {pieces : List (List Char)}
    (h : ∀ piece ∈ pieces, Plain piece) : Plain (join separator pieces) := by
  induction pieces with
  | nil => exact plain_nil
  | cons piece pieces ih =>
    obtain ⟨hpiece, hpieces⟩ := List.forall_mem_cons.mp h
    cases pieces with
    | nil => rwa [join, List.intercalate_singleton]
    | cons next pieces =>
      rw [join_cons_cons, plain_append, plain_append]
      exact ⟨⟨hpiece, hseparator⟩, ih hpieces⟩

/-- Letters, digits and the marks of numbers. -/
def isTight (c : Char) : Bool := c.isAlphanum || ['+', '-', '.'].contains c

def Tight (cs : List Char) : Prop := ∀ c ∈ cs, isTight c = true

instance : DecidablePred Tight := List.decidableBAll _

@[simp] theorem tight_nil : Tight [] := List.forall_mem_nil _

@[simp] theorem tight_cons : Tight (c :: cs) ↔ isTight c = true ∧ Tight cs := List.forall_mem_cons

@[simp] theorem tight_append : Tight (cs ++ ds) ↔ Tight cs ∧ Tight ds := List.forall_mem_append

theorem Tight.mono (h : Tight ds) (hsub : cs ⊆ ds) : Tight cs := fun c hc => h c (hsub hc)

theorem Tight.plain (h : Tight cs) : Plain cs := by
  intro c hc
  rcases Bool.or_eq_true_iff.mp (h c hc) with halphanum | hmark
  · rw [isPlain, halphanum, Bool.true_or]
  · have hmarks : ∀ d ∈ ['+', '-', '.'], isPlain d = true := by simp [isPlain]
    exact hmarks c (List.contains_iff_mem.mp hmark)

theorem tight_zeros (n : Nat) : Tight (List.replicate n '0') := by
  intro c hc
  rw [List.eq_of_mem_replicate hc]
  decide

theorem tight_toDigits (n : Nat) : Tight (Nat.toDigits 10 n) := by
  intro c hc
  have hdigit : c.isDigit = true := Nat.isDigit_of_mem_toDigits (by decide) (by decide) hc
  rw [isTight, Char.isAlphanum, hdigit, Bool.or_true, Bool.true_or]

end Text

open Text

theorem Quoted.forall_mem_hex {P : Char → Prop} (h : ∀ n < 16, P (hexDigit n)) (width n : Nat) :
    ∀ c ∈ hex width n, P c := by
  induction width generalizing n with
  | zero => exact List.forall_mem_nil _
  | succ width ih =>
    rw [hex, List.forall_mem_append, List.forall_mem_singleton]
    exact ⟨ih (n / 16), h _ (Nat.mod_lt n (by decide))⟩

theorem tight_toString (n : Int) : Tight (toString n).toList := by
  cases n with
  | ofNat n =>
    show Tight (toString n).toList
    rw [Identifier.toString_toList]
    exact tight_toDigits n
  | negSucc n =>
    show Tight ("-" ++ toString (n + 1)).toList
    rw [String.toList_append, Identifier.toString_toList, tight_append]
    exact ⟨by decide, tight_toDigits (n + 1)⟩

namespace NumberFormat

theorem tight_exponentText (f : NumberFormat) (e : Int) : Tight (f.exponentText e) := by
  rw [exponentText, tight_cons, tight_cons, tight_append]
  refine ⟨by decide, ?_, tight_zeros _, tight_toDigits _⟩
  split <;> decide

theorem tight_positive {f : NumberFormat} (hmark : Tight f.fractionMark) (d : Decimal) : Tight (f.positive d) := by
  have hdigits : Tight d.digits := tight_toDigits d.coefficient
  have hpoint : isTight '.' = true := by decide
  have htake : ∀ n, Tight (d.digits.take n) := fun n => hdigits.mono (List.take_subset n _)
  have hdrop : ∀ n, Tight (d.digits.drop n) := fun n => hdigits.mono (List.drop_subset n _)
  have hfraction : Tight (if (d.digits.drop 1).isEmpty then [] else '.' :: d.digits.drop 1) := by
    split
    · exact tight_nil
    · exact tight_cons.mpr ⟨hpoint, hdrop 1⟩
  rw [positive]
  split
  · split
    · exact tight_cons.mpr ⟨by decide, tight_cons.mpr ⟨hpoint, tight_append.mpr ⟨tight_zeros _, hdigits⟩⟩⟩
    split
    · exact tight_append.mpr ⟨tight_append.mpr ⟨hdigits, tight_zeros _⟩, hmark⟩
    · exact tight_append.mpr ⟨htake _, tight_cons.mpr ⟨hpoint, hdrop _⟩⟩
  · exact tight_append.mpr ⟨tight_append.mpr ⟨htake 1, hfraction⟩, f.tight_exponentText _⟩

theorem tight_source (x : Double) : Tight (source.chars x) := by
  have hsign : ∀ negative, Tight (sign negative) := by decide
  have hmark : Tight source.fractionMark := by decide
  cases x with
  | nan => decide
  | infinite negative => exact tight_append.mpr ⟨hsign negative, by decide⟩
  | finite negative m q =>
    rw [chars]
    split
    · exact tight_append.mpr ⟨hsign _, tight_cons.mpr ⟨by decide, hmark⟩⟩
    · exact tight_append.mpr ⟨hsign negative, tight_positive hmark _⟩

end NumberFormat

namespace Moment

theorem plain_call {function : String} {arguments : List (List Char)} (hfunction : Plain function.toList)
    (harguments : ∀ argument ∈ arguments, Plain argument) : Plain (call function arguments) := by
  rw [call, plain_append, plain_cons, plain_append]
  exact ⟨hfunction, by decide, plain_join (by decide) harguments, by decide⟩

theorem plain_shownDifference (minutes : Int) : Plain (TimeOfDay.shownDifference minutes) := by
  have hpart : ∀ (name : String) (n : Int), Plain name.toList →
      ∀ part ∈ (if n == 0 then [] else [name.toList ++ '=' :: (toString n).toList]), Plain part := by
    intro name n hname part hpart
    split at hpart
    · exact absurd hpart List.not_mem_nil
    · rw [List.mem_singleton.mp hpart]
      exact plain_append.mpr ⟨hname, plain_cons.mpr ⟨by decide, (tight_toString n).plain⟩⟩
  exact plain_call (by decide)
    (List.forall_mem_append.mpr ⟨hpart "days" _ (by decide), hpart "seconds" _ (by decide)⟩)

theorem plain_shownOffset (minutes : Int) : Plain (TimeOfDay.shownOffset minutes) := by
  rw [TimeOfDay.shownOffset]
  split
  · decide
  · exact plain_call (by decide) (List.forall_mem_singleton.mpr (plain_shownDifference minutes))

theorem plain_shownParts (t : TimeOfDay) : ∀ part ∈ t.shownParts, Plain part := by
  refine List.forall_mem_append.mpr ⟨List.forall_mem_map.mpr fun n _ => (tight_toDigits n).plain, ?_⟩
  cases t.offset with
  | none => exact List.forall_mem_nil _
  | some minutes =>
    exact List.forall_mem_singleton.mpr (plain_append.mpr ⟨by decide, plain_shownOffset minutes⟩)

theorem plain_shownChars (m : Moment) : Plain m.shownChars := by
  have hdate : ∀ part ∈ [m.year, m.month, m.day].map (Nat.toDigits 10), Plain part :=
    List.forall_mem_map.mpr fun n _ => (tight_toDigits n).plain
  rw [shownChars]
  split
  · exact plain_call (by decide) hdate
  · exact plain_call (by decide) (List.forall_mem_append.mpr ⟨hdate, plain_shownParts _⟩)

end Moment

/-- Texts and bytes are shown in quotes, anything else in plain characters. -/
theorem Scalar.shownChars_cases (s : Scalar) :
    (∃ text, s = .str text ∧ s.shownChars = Quoted.shown text.toList) ∨
      (∃ bytes, s = .bytes bytes ∧ s.shownChars = Quoted.shownBytes bytes) ∨ Plain s.shownChars := by
  cases s with
  | null => exact .inr (.inr (by decide))
  | bool b => exact .inr (.inr (by cases b <;> decide))
  | int n => exact .inr (.inr (tight_toString n).plain)
  | float x => exact .inr (.inr (NumberFormat.tight_source x).plain)
  | str text => exact .inl ⟨text, rfl, rfl⟩
  | bytes bytes => exact .inr (.inl ⟨bytes, rfl, rfl⟩)
  | moment m => exact .inr (.inr m.plain_shownChars)

theorem Scalar.tight_number {number : Scalar} (h : number.isNumber = true) : Tight number.shownChars := by
  cases number with
  | int n => exact tight_toString n
  | float x => exact NumberFormat.tight_source x
  | null | bool b | str s | bytes bs | moment m => cases h

/-- Numbers begin with a digit or a sign, but for the two floats that are words. -/
theorem Scalar.exists_head_number {number : Scalar} (h : number.isNumber = true) :
    (∃ c rest, number.shownChars = c :: rest ∧ (c = '-' ∨ c.isDigit = true)) ∨
      number = .float .nan ∨ number = .float (.infinite false) := by
  have hdigits : ∀ n, ∃ c rest, Nat.toDigits 10 n = c :: rest ∧ (c = '-' ∨ c.isDigit = true) := by
    intro n
    obtain ⟨c, rest, hchars, hc⟩ := Json.exists_digit_of_isWhole (Json.isWhole_toDigits n)
    exact ⟨c, rest, hchars, .inr hc⟩
  cases number with
  | int n =>
    left
    cases n with
    | ofNat n =>
      show ∃ c rest, (toString n).toList = c :: rest ∧ _
      rw [Identifier.toString_toList]
      exact hdigits n
    | negSucc n =>
      show ∃ c rest, ("-" ++ toString (n + 1)).toList = c :: rest ∧ _
      rw [String.toList_append]
      exact ⟨'-', _, rfl, .inl rfl⟩
  | float x =>
    cases x with
    | nan => exact .inr (.inl rfl)
    | infinite negative =>
      cases negative with
      | false => exact .inr (.inr rfl)
      | true => exact .inl ⟨'-', _, rfl, .inl rfl⟩
    | finite negative m q =>
      obtain ⟨n, hn, -⟩ := NumberFormat.source.exists_number negative m q
      obtain ⟨c, rest, hchars, hc⟩ := n.exists_head
      exact .inl ⟨c, rest, hn.symm.trans hchars, hc⟩
  | null | bool b | str s | bytes bs | moment m => cases h

end ClientBindings
