import ClientBindings.Document.Text
import ClientBindings.Proofs.Entries
import ClientBindings.Proofs.Identifier
import ClientBindings.Proofs.Json.Grammar
import ClientBindings.Proofs.Json.Spelling
import ClientBindings.Proofs.Percent
import ClientBindings.Proofs.Wire.Layout

/-! JSON written like a browser does, read back. What is written is a text of the grammar, and what it
denotes is the value with sequences as lists, keys as texts and `null` for floats that are not finite. A
float whose text is an integer reads as that integer. -/

namespace ClientBindings

namespace Quoted

theorem hexCode?_hex : ∀ n < 32, ∃ x y z w, hex 4 n = [x, y, z, w] ∧ Json.hexCode? x y z w = some n := by
  intro n hn
  refine ⟨hexDigit (n / 16 / 16 / 16 % 16), hexDigit (n / 16 / 16 % 16), hexDigit (n / 16 % 16), hexDigit (n % 16),
    rfl, ?_⟩
  revert n
  decide

theorem jsonChar_text (c : Char) : Json.CharText (jsonChar c) c := by
  unfold jsonChar
  -- the characters that have a short escape
  iterate 7
    split
    · rename_i h
      subst h
      exact .short rfl
  split
  · rename_i hcontrol
    obtain ⟨x, y, z, w, hhex, hcode⟩ := hexCode?_hex c.toNat hcontrol
    have htext := Json.CharText.code hcode (by omega)
    rw [Char.ofNat_toNat] at htext
    rw [hhex]
    exact htext
  · rename_i hquote hbackslash _ _ _ _ _ hcontrol
    exact .plain (Nat.not_lt.mp hcontrol) hquote hbackslash

theorem json_text (cs : List Char) : Json.StringText (cs.flatMap jsonChar) cs := by
  induction cs with
  | nil => exact .nil
  | cons c cs ih => exact .cons (jsonChar_text c) ih

end Quoted

namespace Json

/-- The number that an integer is written as. -/
def Number.ofInt (n : Int) : Number where
  negative := decide (n < 0)
  whole := Nat.toDigits 10 n.natAbs
  fraction := []
  exponent := none
  isWhole := isWhole_toDigits n.natAbs
  allDigits := by simp

theorem Number.chars_ofInt (n : Int) : (Number.ofInt n).chars = (toString n).toList := by
  rw [chars, unsignedChars]
  cases n with
  | ofNat m =>
    have hsign : decide ((Int.ofNat m) < 0) = false := decide_eq_false (Int.not_lt.mpr (Int.natCast_nonneg m))
    show signChars (decide ((Int.ofNat m) < 0)) ++ (Nat.toDigits 10 m ++ []) = (toString m).toList
    rw [hsign, Identifier.toString_toList, List.append_nil]
    rfl
  | negSucc m =>
    have hsign : decide (Int.negSucc m < 0) = true := decide_eq_true (Int.negSucc_lt_zero m)
    show signChars (decide (Int.negSucc m < 0)) ++ (Nat.toDigits 10 (m + 1) ++ []) = ("-" ++ toString (m + 1)).toList
    rw [hsign, String.toList_append, Identifier.toString_toList, List.append_nil]
    rfl

theorem Number.scalar_ofInt (n : Int) : (Number.ofInt n).scalar = .int n := by
  have hdigits := natOfDigits_toDigits n.natAbs
  show Scalar.int (Numeral.signed (decide (n < 0)) (natOfDigits (Nat.toDigits 10 n.natAbs))) = .int n
  rw [hdigits, Numeral.signed]
  congr 1
  by_cases hn : n < 0
  · rw [if_pos (decide_eq_true hn)]
    omega
  · rw [if_neg (by simpa using hn)]
    omega

theorem Number.isTooLong_ofInt (n : Int) : (Number.ofInt n).isTooLong = !Numeral.isShort n := by
  rw [Numeral.isShort, ← decide_not, decide_eq_decide.mpr Nat.not_le]
  rfl

end Json

namespace Wire

/-- Whether JSON has such a scalar, and an integer no more digits than are read. -/
def isJsonScalar : Scalar → Bool
  | .int n => Numeral.isShort n
  | s => s.isPlain

mutual
/-- Whether a value is built of scalars, sequences and mappings, the keys of each being told apart by
their texts, which all of them have. -/
def isJson : Value → Bool
  | .scalar s => isJsonScalar s
  | .list xs | .tuple xs => areJson xs
  | .map es => decide (es.map fun e => spelling e.1).Nodup && holdJson es
  | _ => false
def areJson : List Value → Bool
  | [] => true
  | x :: xs => isJson x && areJson xs
def holdJson : List (Value × Value) → Bool
  | [] => true
  | (k, v) :: es => k.isSpellable && (isJson v && holdJson es)
end

/-- What a scalar reads back as: itself, unless it is a float; then the number its text denotes, or null. -/
def ReadsAs : Scalar → Scalar → Prop
  | .float x, s =>
    if x.isFinite then ∃ n : Json.Number, n.chars = (spelling (.float x)).toList ∧ s = n.scalar else s = .null
  | t, s => s = t

mutual
/-- What a value reads back as: sequences as lists, keys as their texts, in order. -/
def ReadsBack : Value → Data → Prop
  | .scalar t, d => ∃ s, d = .scalar s ∧ ReadsAs t s
  | .list xs, d | .tuple xs, d => ∃ ds, d = .list ds ∧ ItemsReadBack xs ds
  | .map es, d => ∃ fs, d = .map fs ∧ EntriesReadBack es fs
  | _, _ => False
def ItemsReadBack : List Value → List Data → Prop
  | [], ds => ds = []
  | x :: xs, ds => ∃ d rest, ds = d :: rest ∧ ReadsBack x d ∧ ItemsReadBack xs rest
def EntriesReadBack : List (Value × Value) → List (Scalar × Data) → Prop
  | [], fs => fs = []
  | (k, v) :: es, fs => ∃ d rest, fs = (.str (spelling k), d) :: rest ∧ ReadsBack v d ∧ EntriesReadBack es rest
end

/-! ## Containers from their parts -/

open Json (Denotes Part IsBlank)

theorem isBlank_nil : IsBlank [] := by
  intro c hc
  cases hc

theorem element_of_value {cs : List Char} {d : Data} (h : Denotes cs (.value d)) : Denotes cs (.element d) := by
  have hpadded := Denotes.element isBlank_nil h isBlank_nil
  rwa [List.append_nil] at hpadded

theorem join_cons {separator piece : List Char} {pieces : List (List Char)} (h : pieces ≠ []) :
    Text.join separator (piece :: pieces) = piece ++ separator ++ Text.join separator pieces :=
  List.intercalate_cons_of_ne_nil h

theorem denotes_items {parts : List (List Char)} {ds : List Data} (hne : parts ≠ [])
    (h : List.Forall₂ (fun cs d => Denotes cs (.value d)) parts ds) : Denotes (Text.join [','] parts) (.items ds) := by
  induction h with
  | nil => exact absurd rfl hne
  | cons hpart hrest ih =>
    rename_i part d parts ds
    cases hrest with
    | nil =>
      rw [Text.join, List.intercalate_singleton]
      exact .item (element_of_value hpart)
    | cons hnext hrest =>
      rw [join_cons (List.cons_ne_nil _ _), List.append_assoc]
      exact .items (element_of_value hpart) (ih (List.cons_ne_nil _ _))

theorem denotes_members {parts : List (List Char)} {es : List (Scalar × Data)} (hne : parts ≠ [])
    (h : List.Forall₂ (fun cs e => ∃ key d, e = (.str key, d) ∧ Denotes cs (.member key d)) parts es) :
    Denotes (Text.join [','] parts) (.members es) := by
  induction h with
  | nil => exact absurd rfl hne
  | cons hpart hrest ih =>
    obtain ⟨key, d, rfl, hpart⟩ := hpart
    cases hrest with
    | nil =>
      rw [Text.join, List.intercalate_singleton]
      exact .member hpart
    | cons hnext hrest =>
      rw [join_cons (List.cons_ne_nil _ _), List.append_assoc]
      exact .members hpart (ih (List.cons_ne_nil _ _))

theorem denotes_list {parts : List (List Char)} {ds : List Data}
    (h : List.Forall₂ (fun cs d => Denotes cs (.value d)) parts ds) :
    Denotes (JsonForm.browser.enclosed '[' ']' parts) (.value (.list ds)) := by
  by_cases hne : parts = []
  · rw [hne] at h ⊢
    cases h
    exact .emptyList isBlank_nil
  · exact .list (denotes_items hne h)

/-! ## Scalars and keys -/

theorem integer_ok {n : Int} (h : Numeral.isShort n = true) : JsonForm.integer n = .ok (toString n).toList :=
  Result.guarded_of_true h

theorem key_ok {k : Value} (h : k.isSpellable = true) :
    JsonForm.browser.key k = .ok (Quoted.json (spelling k).toList) := by
  show (do return Quoted.json (← stringify k).toList) = _
  rw [stringify_of_isSpellable h]
  rfl

theorem float_number {x : Double} (h : x.isFinite = true) : ∃ n : Json.Number,
    n.chars = NumberFormat.wire.chars x ∧ n.isTooLong = false := by
  cases x with
  | nan => cases h
  | infinite negative => cases h
  | finite negative m q =>
    obtain ⟨n, hchars, hshort⟩ := NumberFormat.wire.exists_number negative m q
    have hmost : n.whole.length ≤ Numeral.mostDigits := Nat.le_trans hshort (by decide)
    refine ⟨n, hchars, ?_⟩
    rw [Json.Number.isTooLong, Bool.and_eq_false_iff]
    exact .inr (decide_eq_false (Nat.not_lt.mpr hmost))

theorem scalar_denotes {t : Scalar} (h : isJsonScalar t = true) : ∃ cs s,
    JsonForm.browser.scalar t = .ok cs ∧ Denotes cs (.value (.scalar s)) ∧ ReadsAs t s := by
  cases t with
  | null => exact ⟨_, _, rfl, .null, rfl⟩
  | bool b =>
    cases b with
    | false => exact ⟨_, _, rfl, .false, rfl⟩
    | true => exact ⟨_, _, rfl, .true, rfl⟩
  | int n =>
    have hshort : Numeral.isShort n = true := h
    have hread : (Json.Number.ofInt n).isTooLong = false := by
      rw [Json.Number.isTooLong_ofInt, hshort]
      rfl
    have hdenotes := Denotes.number (Json.Number.ofInt n) hread
    rw [Json.Number.chars_ofInt, Json.Number.scalar_ofInt] at hdenotes
    exact ⟨_, _, integer_ok hshort, hdenotes, rfl⟩
  | float x =>
    by_cases hx : x.isFinite = true
    · obtain ⟨n, hchars, hshort⟩ := float_number hx
      have hdenotes := Denotes.number n hshort
      refine ⟨NumberFormat.wire.chars x, n.scalar, ?_, hchars ▸ hdenotes, ?_⟩
      · exact congrArg Except.ok (if_pos hx)
      · rw [ReadsAs, if_pos hx]
        exact ⟨n, hchars.trans (String.toList_ofList).symm, rfl⟩
    · refine ⟨"null".toList, .null, ?_, .null, ?_⟩
      · exact congrArg Except.ok (if_neg hx)
      · rw [ReadsAs, if_neg hx]
  | str text =>
    have hdenotes := Denotes.string (Quoted.json_text text.toList)
    rw [String.ofList_toList] at hdenotes
    exact ⟨_, _, rfl, hdenotes, rfl⟩
  | bytes bs => cases h
  | moment m => cases h

/-! ## Whole values -/

/-- The texts of the entries denote members, their keys being the keys as texts. -/
def MembersDenoted (es : List (Value × Value)) (parts : List (List Char)) (fs : List (Scalar × Data)) : Prop :=
  List.Forall₂ (fun cs f => ∃ key d, f = (.str key, d) ∧ Denotes cs (.member key d)) parts fs ∧
    fs.map Prod.fst = es.map fun e => .str (spelling e.1)

theorem denotes_member {key : String} {cs : List Char} {d : Data} (h : Denotes cs (.value d)) :
    Denotes (Quoted.json key.toList ++ ':' :: cs) (.member key d) := by
  have hassign := Denotes.assign isBlank_nil (Quoted.json_text key.toList) isBlank_nil (element_of_value h)
  rw [String.ofList_toList] at hassign
  rw [Quoted.json, List.cons_append, List.append_assoc, List.singleton_append]
  exact hassign

theorem ofList_eq_self {es : List (Value × Value)} {fs : List (Scalar × Data)}
    (hnodup : (es.map fun e => spelling e.1).Nodup) (hkeys : fs.map Prod.fst = es.map fun e => .str (spelling e.1)) :
    Entries.ofList Scalar.same fs = fs := by
  apply Entries.merge_eq_append
  have hstrings : (fs.map Prod.fst).Pairwise fun a b => ¬ Scalar.same a b = true := by
    have hmap : (es.map fun e => Scalar.str (spelling e.1)) = (es.map fun e => spelling e.1).map .str := by
      rw [List.map_map]
      rfl
    rw [hkeys, hmap, List.pairwise_map]
    apply hnodup.imp
    intro a b hne hsame
    exact hne (Scalar.str.inj (Scalar.same_str_right.mp hsame))
  exact List.pairwise_map.mp hstrings

theorem denotes_map {es : List (Value × Value)} {parts : List (List Char)} {fs : List (Scalar × Data)}
    (hnodup : (es.map fun e => spelling e.1).Nodup) (h : MembersDenoted es parts fs) :
    Denotes (JsonForm.browser.enclosed '\x7b' '\x7d' parts) (.value (.map fs)) := by
  obtain ⟨hparts, hkeys⟩ := h
  by_cases hne : parts = []
  · rw [hne] at hparts ⊢
    cases hparts
    exact .emptyMap isBlank_nil
  · have hmap := Denotes.map (denotes_members hne hparts)
    rwa [ofList_eq_self hnodup hkeys] at hmap

mutual
theorem chars_denotes : ∀ v : Value, isJson v = true → ∃ cs d,
    JsonForm.browser.chars v = .ok cs ∧ Denotes cs (.value d) ∧ ReadsBack v d
  | .scalar t, h => by
    obtain ⟨cs, s, hcs, hdenotes, hreads⟩ := scalar_denotes h
    exact ⟨cs, .scalar s, hcs, hdenotes, s, rfl, hreads⟩
  | .list xs, h => by
    obtain ⟨parts, ds, hparts, hdenotes, hreads⟩ := itemChars_denotes xs h
    refine ⟨_, .list ds, ?_, denotes_list hdenotes, ds, rfl, hreads⟩
    exact Result.bind_eq_ok_iff.mpr ⟨parts, hparts, rfl⟩
  | .tuple xs, h => by
    obtain ⟨parts, ds, hparts, hdenotes, hreads⟩ := itemChars_denotes xs h
    refine ⟨_, .list ds, ?_, denotes_list hdenotes, ds, rfl, hreads⟩
    exact Result.bind_eq_ok_iff.mpr ⟨parts, hparts, rfl⟩
  | .map es, h => by
    obtain ⟨hnodup, hes⟩ := Bool.and_eq_true_iff.mp h
    obtain ⟨parts, fs, hparts, hdenotes, hreads⟩ := entryChars_denotes es hes
    refine ⟨_, .map fs, ?_, denotes_map (of_decide_eq_true hnodup) hdenotes, fs, rfl, hreads⟩
    exact Result.bind_eq_ok_iff.mpr ⟨parts, hparts, rfl⟩
  | .source .., h => by cases h
  | .signal _, h => by cases h
  | .multipart _, h => by cases h
theorem itemChars_denotes : ∀ xs : List Value, areJson xs = true → ∃ parts ds,
    JsonForm.browser.itemChars xs = .ok parts ∧ List.Forall₂ (fun cs d => Denotes cs (.value d)) parts ds ∧
      ItemsReadBack xs ds
  | [], _ => ⟨[], [], rfl, .nil, rfl⟩
  | x :: xs, h => by
    obtain ⟨hx, hxs⟩ := Bool.and_eq_true_iff.mp h
    obtain ⟨cs, d, hcs, hdenotes, hreads⟩ := chars_denotes x hx
    obtain ⟨parts, ds, hparts, hrest, hreadsRest⟩ := itemChars_denotes xs hxs
    refine ⟨cs :: parts, d :: ds, ?_, .cons hdenotes hrest, d, ds, rfl, hreads, hreadsRest⟩
    exact Result.bind_eq_ok_iff.mpr ⟨cs, hcs, Result.bind_eq_ok_iff.mpr ⟨parts, hparts, rfl⟩⟩
theorem entryChars_denotes : ∀ es : List (Value × Value), holdJson es = true → ∃ parts fs,
    JsonForm.browser.entryChars es = .ok parts ∧ MembersDenoted es parts fs ∧ EntriesReadBack es fs
  | [], _ => ⟨[], [], rfl, ⟨.nil, rfl⟩, rfl⟩
  | (k, v) :: es, h => by
    obtain ⟨hk, hv, hes⟩ := by simpa only [holdJson, Bool.and_eq_true] using h
    obtain ⟨cs, d, hcs, hdenotes, hreads⟩ := chars_denotes v hv
    obtain ⟨parts, fs, hparts, ⟨hrest, hkeys⟩, hreadsRest⟩ := entryChars_denotes es hes
    have hmembers := List.Forall₂.cons ⟨spelling k, d, rfl, denotes_member hdenotes⟩ hrest
    refine ⟨_ :: parts, (.str (spelling k), d) :: fs, ?_, ⟨hmembers, ?_⟩, d, fs, rfl, hreads, hreadsRest⟩
    · refine Result.bind_eq_ok_iff.mpr ⟨_, key_ok hk, Result.bind_eq_ok_iff.mpr ⟨cs, hcs, ?_⟩⟩
      exact Result.bind_eq_ok_iff.mpr ⟨parts, hparts, rfl⟩
    · rw [List.map_cons, List.map_cons, hkeys]
end

theorem Layout.json_eq {v : Value} {text : String} (name : String) (hv : isJson v = true) (hnull : v.isNull = false)
    (htext : toJson v = .ok text) : json name v = .ok (some (name ++ "=" ++ Text.onChars Percent.component text)) := by
  unfold json
  split
  · cases hnull
  · cases hv
  · exact Result.bind_eq_ok_iff.mpr ⟨text, htext, rfl⟩

theorem toJson_reads_back (v : Value) (name suffix : String) (hv : isJson v = true)
    (hsuffix : Document.isYamlSuffix suffix = false) : ∃ text d, toJson v = .ok text ∧
      Denotes text.toList (.element d) ∧ Document.parse text suffix = .ok d ∧ ReadsBack v d ∧
      (v.isNull = false → ∃ encoded, Layout.json name v = .ok (some (name ++ "=" ++ encoded)) ∧
        Percent.decode encoded.toList = text.toList) := by
  obtain ⟨cs, d, hcs, hdenotes, hreads⟩ := chars_denotes v hv
  have htext : toJson v = .ok (String.ofList cs) := Result.bind_eq_ok_iff.mpr ⟨cs, hcs, rfl⟩
  have helement : Denotes (String.ofList cs).toList (.element d) := by
    rw [String.toList_ofList]
    exact element_of_value hdenotes
  refine ⟨String.ofList cs, d, htext, helement, ?_, hreads, ?_⟩
  · rw [Document.parse, hsuffix, Json.parse_of_denotes helement]
    rfl
  · intro hnull
    refine ⟨_, Layout.json_eq name hv hnull htext, ?_⟩
    rw [Text.onChars, String.toList_ofList, Percent.decode_component]

def order : Value :=
  .map [(.str "lines", .tuple [.int 12, .float (.finite true 3 (-1)), .float .nan]), (.int 2, .str "\n")]

theorem toJson_reads_back_order : isJson order = true ∧ ∃ text d, toJson order = .ok text ∧
    Denotes text.toList (.element d) ∧ Document.parse text ".json" = .ok d ∧ ReadsBack order d ∧
    ∃ encoded, Layout.json "order" order = .ok (some ("order" ++ "=" ++ encoded)) ∧
      Percent.decode encoded.toList = text.toList := by
  have hjson : isJson order = true := by decide +kernel
  obtain ⟨text, d, htext, hdenotes, hparse, hreads, hstyled⟩ :=
    toJson_reads_back order "order" ".json" hjson (by decide +kernel)
  exact ⟨hjson, text, d, htext, hdenotes, hparse, hreads, hstyled rfl⟩

example : toJson order = .ok "\x7b\"lines\":[12,-1.5,null],\"2\":\"\\n\"\x7d" := by rfl

/-- Integers of more digits are not written, and their texts are not read. -/
theorem integer_refused {n : Int} (h : Numeral.isShort n = false) (suffix : String)
    (hsuffix : Document.isYamlSuffix suffix = false) :
    toJson (.int n) = .error .badValue ∧ Document.parse (toString n) suffix = .error .badValue := by
  have hparse : Json.parse (toString n) = .error .badValue := by
    have hlong : (Json.Number.ofInt n).isTooLong = true := by
      rw [Json.Number.isTooLong_ofInt, h]
      rfl
    have hrefused := Json.parse_tooLong (Json.Number.ofInt n) hlong
    rwa [Json.Number.chars_ofInt, String.ofList_toList] at hrefused
  have hwrite : JsonForm.integer n = .error .badValue := Result.guarded_of_false h
  constructor
  · show (JsonForm.integer n >>= fun cs => pure (String.ofList cs)) = _
    rw [hwrite]
    rfl
  · rw [Document.parse, hsuffix, hparse]
    rfl

theorem power_of_ten_refused : toJson (.int (10 ^ 4300)) = .error .badValue ∧
    Document.parse (toString ((10 : Int) ^ 4300)) ".json" = .error .badValue :=
  integer_refused (Numeral.not_isShort_pow (Nat.le_refl 4300)) ".json" (by decide +kernel)

end Wire
end ClientBindings
