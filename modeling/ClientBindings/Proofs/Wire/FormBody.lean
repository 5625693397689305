import ClientBindings.Proofs.Entries
import ClientBindings.Proofs.Percent
import ClientBindings.Proofs.Wire.Layout
import ClientBindings.Wire.Body
import Mathlib.Data.List.Basic

/-! Form bodies read back. A component of a form has neither the mark that stands between fields nor the sign
behind a name, and it has plus signs for blanks only; so a body falls apart into its fields, and each of them into
the name and the text that were written. An integer without a text is refused. -/

namespace ClientBindings

namespace Percent

/-- Plus signs as the blanks that they stand for. -/
def blanked (cs : List Char) : List Char := cs.map fun c => if c = '+' then ' ' else c

def decodeForm (cs : List Char) : List Char := decode (blanked cs)

variable {bs : List UInt8} {cs : List Char}

theorem isFormSafe_bounds {c : Char} (h : isFormSafe c = true) :
    isAscii c = true ∧ c ≠ '%' ∧ c ≠ '+' ∧ c ≠ '&' ∧ c ≠ '=' := by
  rcases Bool.or_eq_true_iff.mp h with h | h
  · refine ⟨isAscii_of_isAlphanum h, ?_, ?_, ?_, ?_⟩
    all_goals
      rintro rfl
      cases h
  · have hall : ("_.-~".toList.all fun d => isAscii d && d != '%' && d != '+' && d != '&' && d != '=') = true := by decide
    have hc := List.all_eq_true.mp hall c (List.contains_iff_mem.mp h)
    simpa [and_assoc] using hc

/-- A byte is written as a plus sign, as its character or as an escape. -/
theorem formByte_cases (b : UInt8) : b = ' '.toUInt8 ∧ formByte b = ['+'] ∨
    (∃ c, isFormSafe c = true ∧ b = c.toUInt8 ∧ formByte b = [c]) ∨ formByte b = encodeByte b := by
  have hbyte : b = (Char.ofNat b.toNat).toUInt8 := by
    have hlt : b.toNat < 256 := b.toNat_lt
    have hvalid : b.toNat.isValidChar := .inl (by omega)
    rw [Char.ofNat, dif_pos hvalid]
    exact (UInt8.ofNat_toNat).symm
  have hform : formByte b = if Char.ofNat b.toNat = ' ' then ['+'] else
      if isFormSafe (Char.ofNat b.toNat) then [Char.ofNat b.toNat] else encodeByte b := by
    rw [formByte]
    simp only [beq_iff_eq]
  by_cases hblank : Char.ofNat b.toNat = ' '
  · rw [if_pos hblank] at hform
    exact .inl ⟨hblank ▸ hbyte, hform⟩
  rw [if_neg hblank] at hform
  by_cases hsafe : isFormSafe (Char.ofNat b.toNat) = true
  · rw [if_pos hsafe] at hform
    exact .inr (.inl ⟨_, hsafe, hbyte, hform⟩)
  · rw [if_neg hsafe] at hform
    exact .inr (.inr hform)

theorem mem_formByte {b : UInt8} {c : Char} (h : c ∈ formByte b) : c = '+' ∨ c = '%' ∨ isFormSafe c = true := by
  rcases formByte_cases b with ⟨-, hform⟩ | ⟨d, hsafe, -, hform⟩ | hform
  · exact .inl (List.mem_singleton.mp (hform ▸ h))
  · rw [hform, List.mem_singleton] at h
    exact .inr (.inr (h ▸ hsafe))
  · rw [hform] at h
    exact .inr ((eq_or_isAlphanum_of_mem_encodeByte h).imp_right fun h => Bool.or_eq_true_iff.mpr (.inl h))

theorem blanked_of_not_mem (h : '+' ∉ cs) : blanked cs = cs :=
  Text.map_eq_self fun _ hc => if_neg (ne_of_mem_of_not_mem hc h)

theorem bytesOf_formByte (b : UInt8) (cs : List Char) : bytesOf (blanked (formByte b) ++ cs) = b :: bytesOf cs := by
  rcases formByte_cases b with ⟨rfl, hform⟩ | ⟨d, hsafe, rfl, hform⟩ | hform
  · rw [hform]
    exact bytesOf_cons_of_ne (by decide) cs
  · obtain ⟨-, hpercent, hplus, -⟩ := isFormSafe_bounds hsafe
    rw [hform, blanked_of_not_mem (by simpa using Ne.symm hplus)]
    exact bytesOf_cons_of_ne hpercent cs
  · rw [hform, blanked_of_not_mem, bytesOf_encodeByte]
    intro h
    rcases eq_or_isAlphanum_of_mem_encodeByte h with h | h
    · exact absurd h (by decide)
    · exact absurd h (by decide)

theorem bytesOf_formBytes (bs : List UInt8) : bytesOf (blanked (formBytes bs)) = bs := by
  induction bs with
  | nil => rfl
  | cons b bs ih =>
    have happend : blanked (formBytes (b :: bs)) = blanked (formByte b) ++ blanked (formBytes bs) := by
      rw [formBytes, List.flatMap_cons, blanked, List.map_append]
      rfl
    rw [happend, bytesOf_formByte, ih]

theorem isAscii_of_mem_blanked {c : Char} (h : c ∈ blanked (formBytes bs)) : isAscii c = true := by
  obtain ⟨d, hd, rfl⟩ := List.mem_map.mp h
  obtain ⟨b, -, hb⟩ := List.mem_flatMap.mp hd
  split
  · rfl
  · rename_i hplus
    rcases mem_formByte hb with rfl | rfl | hsafe
    · exact absurd rfl hplus
    · rfl
    · exact (isFormSafe_bounds hsafe).1

theorem decodeForm_formComponent (cs : List Char) : decodeForm (formComponent cs) = cs := by
  rw [decodeForm, formComponent, decode, decodeRuns_of_ascii fun c => isAscii_of_mem_blanked, List.reverse_nil,
    List.nil_append, bytesOf_formBytes, Utf8.decodeLossy_encode]

theorem not_mem_formComponent {c : Char} (hc : c = '&' ∨ c = '=') (cs : List Char) : c ∉ formComponent cs := by
  intro h
  obtain ⟨b, -, hb⟩ := List.mem_flatMap.mp h
  rcases mem_formByte hb with rfl | rfl | hsafe
  · exact absurd hc (by decide)
  · exact absurd hc (by decide)
  · obtain ⟨-, -, -, hand, hsign⟩ := isFormSafe_bounds hsafe
    exact hc.elim hand hsign

end Percent

namespace Wire

/-- The fields of a form body: empty pieces are none, and what has no sign is a name. -/
def readForm (text : List Char) : List (String × String) :=
  ((Text.splitOn '&' text).filter fun piece => !piece.isEmpty).map fun piece =>
    let field := Text.cut '=' piece
    (String.ofList (Percent.decodeForm field.1), String.ofList (Percent.decodeForm field.2))

/-- What a form sends under one name: each item of a sequence, or the value itself. -/
def sentItems : Value → List Value
  | .list items | .tuple items => items
  | v => [v]

/-- What a form sends, each item with its name. -/
def sent (entries : List (String × Value)) : List (String × Value) :=
  entries.flatMap fun e => (sentItems e.2).map fun item => (e.1, item)

/-- A name and a value as they stand in a form body. -/
def formPiece (name : String) (v : Value) : List Char :=
  Percent.formComponent name.toList ++ '=' :: Percent.formComponent (spelling v).toList

theorem readForm_join (fields : List (String × Value)) :
    readForm (Text.join ['&'] (fields.map fun e => formPiece e.1 e.2)) = fields.map fun e => (e.1, spelling e.2) := by
  by_cases hfields : fields = []
  · rw [hfields]
    rfl
  have hmark : ∀ piece ∈ fields.map fun e => formPiece e.1 e.2, '&' ∉ piece := by
    intro piece hpiece
    obtain ⟨e, -, rfl⟩ := List.mem_map.mp hpiece
    rw [formPiece, List.mem_append, List.mem_cons]
    rintro (h | h | h)
    · exact Percent.not_mem_formComponent (.inl rfl) _ h
    · exact absurd h (by decide)
    · exact Percent.not_mem_formComponent (.inl rfl) _ h
  have hkept : ∀ piece ∈ fields.map fun e => formPiece e.1 e.2, (!piece.isEmpty) = true := by
    intro piece hpiece
    obtain ⟨e, -, rfl⟩ := List.mem_map.mp hpiece
    simp [formPiece]
  rw [readForm, Text.splitOn_join (mt List.map_eq_nil_iff.mp hfields) hmark, List.filter_eq_self.mpr hkept, List.map_map]
  apply List.map_congr_left
  intro e _
  rw [Function.comp_apply, formPiece, Text.cut_append (Percent.not_mem_formComponent (.inr rfl) _)]
  show (String.ofList (Percent.decodeForm _), String.ofList (Percent.decodeForm _)) = _
  rw [Percent.decodeForm_formComponent, Percent.decodeForm_formComponent, String.ofList_toList, String.ofList_toList]

theorem entriesOf_map (entries : Value.Fields) : entriesOf (.map entries) = .ok entries := by
  cases entries <;> rfl

theorem fields_map (entries : List (String × Value)) : BodyFormat.fields (.map (entries.map fun e => (.str e.1, e.2))) =
    .ok ((sent entries).map fun e => (.str e.1, e.2)) := by
  rw [BodyFormat.fields, entriesOf_map]
  refine congrArg Except.ok ?_
  rw [sent, List.flatMap_map, List.map_flatMap]
  apply List.flatMap_congr
  intro e _
  rw [List.map_map]
  obtain ⟨name, v⟩ := e
  cases v <;> rfl

theorem formField_eq (name : String) (v : Value) : BodyFormat.formField (.str name) v =
    Result.guarded v.isSpellable (String.ofList (formPiece name v)) := by
  have hpiece : String.ofList (formPiece name v) =
      Text.onChars Percent.formComponent name ++ "=" ++ Text.onChars Percent.formComponent (spelling v) := by
    rw [formPiece, String.ofList_append, String.ofList_cons, ← String.append_assoc]
    rfl
  rw [hpiece]
  exact Result.guarded_pure _

theorem formText_eq (fields : List (String × Value)) : BodyFormat.formText (fields.map fun e => (.str e.1, e.2)) =
    Result.guarded (fields.all fun e => e.2.isSpellable)
      (String.ofList (Text.join ['&'] (fields.map fun e => formPiece e.1 e.2))) := by
  have hfields : (fields.map fun e => ((.str e.1, e.2) : Value × Value)).mapM
      (fun e => BodyFormat.formField e.1 e.2) =
      Result.guarded (fields.all fun e => e.2.isSpellable)
        (fields.map fun e => String.ofList (formPiece e.1 e.2)) := by
    rw [List.mapM_map, ← Result.mapM_guarded]
    exact congrArg fields.mapM (funext fun e => formField_eq e.1 e.2)
  have hjoined : Layout.join "&" (fields.map fun e => String.ofList (formPiece e.1 e.2)) =
      String.ofList (Text.join ['&'] (fields.map fun e => formPiece e.1 e.2)) := by
    rw [← String.toList_inj, String.toList_ofList, Layout.join, String.toList_intercalate, List.map_map]
    exact congrArg (Text.join ['&']) (List.map_congr_left fun e _ => String.toList_ofList)
  rw [BodyFormat.formText, ← hjoined]
  show (do return Layout.join "&" (← List.mapM (fun e : Value × Value => BodyFormat.formField e.1 e.2) _)) = _
  rw [hfields]
  exact Result.guarded_pure _

/-- The names with the texts of what is sent under them. -/
def sentTexts (entries : List (String × Value)) : Result (List (String × String)) :=
  (sent entries).mapM fun (name, item) => return (name, ← stringify item)

theorem all_sentItems (v : Value) : (sentItems v).all Value.isSpellable = v.isSpellable := by
  cases v with
  | list items => exact (Value.areSpellable_eq_all items).symm
  | tuple items => exact (Value.areSpellable_eq_all items).symm
  | scalar | map | source | signal | multipart => exact Bool.and_true _

theorem all_sent (entries : List (String × Value)) :
    ((sent entries).all fun e => e.2.isSpellable) = entries.all fun e => e.2.isSpellable := by
  rw [sent, List.all_flatMap]
  refine congrArg entries.all (funext fun e => ?_)
  rw [List.all_map, ← all_sentItems]
  rfl

theorem sentTexts_eq (entries : List (String × Value)) : sentTexts entries =
    Result.guarded (entries.all fun e => e.2.isSpellable) ((sent entries).map fun e => (e.1, spelling e.2)) := by
  rw [← all_sent, ← Result.mapM_guarded]
  exact congrArg (sent entries).mapM (funext fun _ => Result.guarded_pure _)

section
variable {config : Config} {entries : List (String × Value)}

theorem apply_urlencoded (hbody : config.get "body" = .map (entries.map fun e => (.str e.1, e.2))) :
    BodyFormat.urlencoded.apply config = (do
      let text ← Result.guarded (entries.all fun e => e.2.isSpellable)
        (String.ofList (Text.join ['&'] ((sent entries).map fun e => formPiece e.1 e.2)))
      return some (← BodyFormat.withContent config (.str text) "application/x-www-form-urlencoded")) := by
  rw [BodyFormat.apply, hbody, fields_map, ← all_sent, ← formText_eq]
  rfl

theorem urlencoded_refused (hbody : config.get "body" = .map (entries.map fun e => (.str e.1, e.2)))
    {e : String × Value} (he : e ∈ entries) (h : e.2.isSpellable = false) :
    BodyFormat.urlencoded.apply config = .error .badValue := by
  rw [apply_urlencoded hbody, Result.guarded_of_false (List.all_eq_false.mpr ⟨e, he, Bool.eq_false_iff.mp h⟩)]
  rfl

end

/-- A form body reads back as the names with the texts of what is sent under them, in their order. There is such a
body unless some integer in it has no text. -/
theorem urlencoded_reads_back (config : Config) (entries : List (String × Value))
    (hbody : config.get "body" = .map (entries.map fun e => (.str e.1, e.2)))
    (hheaders : ∃ present, spread (config.get "headers") = .ok present) :
    ((∀ e ∈ entries, e.2.isSpellable = true) → ∃ result text texts,
      BodyFormat.urlencoded.apply config = .ok (some result) ∧ result.get "body" = .str text ∧
      sentTexts entries = .ok texts ∧ readForm text.toList = texts) ∧
    (∀ e ∈ entries, e.2.isSpellable = false → BodyFormat.urlencoded.apply config = .error .badValue) := by
  obtain ⟨present, hpresent⟩ := hheaders
  refine ⟨fun hspellable => ?_, fun e he hlong => urlencoded_refused hbody he hlong⟩
  have hall : (entries.all fun e => e.2.isSpellable) = true := List.all_eq_true.mpr hspellable
  let text := String.ofList (Text.join ['&'] ((sent entries).map fun e => formPiece e.1 e.2))
  have hspread : spread ((config.put "body" (.str text)).get "headers") = .ok present := by
    rw [Config.get, Config.put, Value.getD_put, if_neg (by decide)]
    exact hpresent
  refine ⟨(config.put "body" (.str text)).put "headers" (.map (Value.put present "Content-Type"
    (.str "application/x-www-form-urlencoded"))), text, (sent entries).map fun e => (e.1, spelling e.2), ?_, ?_, ?_, ?_⟩
  · rw [apply_urlencoded hbody, Result.guarded_of_true hall, Result.ok_bind, BodyFormat.withContent, Config.withHeader,
      hspread]
    rfl
  · rw [Config.get, Config.put, Config.put, Value.getD_put, if_neg (by decide), Value.getD_put, if_pos rfl]
  · rw [sentTexts_eq, Result.guarded_of_true hall]
  · rw [String.toList_ofList, readForm_join]

/-- Marks and blanks in names and texts, an empty name, nothing at all, and lists. -/
def orderForm : List (String × Value) :=
  [("a&b=c", .str "50% + 1&x=y"), ("", .null), ("ü €", .list [.bool true, .str "", .int (-3), .str "𝄞+ "]), ("none", .list []),
    ("empty", .str "")]

def orderConfig : Config :=
  [(.str "headers", .map [(.str "X-Trace", .str "1")]), (.str "body", .map (orderForm.map fun e => (.str e.1, e.2)))]

theorem urlencoded_reads_back_order : ∃ result text,
    BodyFormat.urlencoded.apply orderConfig = .ok (some result) ∧ result.get "body" = .str text ∧
    readForm text.toList = [("a&b=c", "50% + 1&x=y"), ("", "None"), ("ü €", "true"), ("ü €", ""), ("ü €", "-3"),
      ("ü €", "𝄞+ "), ("empty", "")] := by
  have hheaders : spread (orderConfig.get "headers") = .ok [(.str "X-Trace", .str "1")] := rfl
  have hspellable : ∀ e ∈ orderForm, e.2.isSpellable = true := by decide
  obtain ⟨result, text, texts, hresult, hbody, htexts, hread⟩ :=
    (urlencoded_reads_back orderConfig orderForm rfl ⟨_, hheaders⟩).1 hspellable
  rw [sentTexts_eq, Result.guarded_eq_ok_iff] at htexts
  exact ⟨result, text, hresult, hbody, hread.trans (htexts.2.symm.trans (by decide +kernel))⟩

theorem long_field_refused {n : Int} (h : Numeral.isShort n = false) :
    BodyFormat.urlencoded.apply [(.str "body", .map [(.str "size", .int n)])] = .error .badValue := by
  have hbody : Config.get [(.str "body", .map [(.str "size", .int n)])] "body" =
      .map ([("size", .int n)].map fun e => (.str e.1, e.2)) := rfl
  exact urlencoded_refused hbody List.mem_cons_self h

/-- A field whose value has no text. -/
theorem power_of_ten_not_sent :
    BodyFormat.urlencoded.apply [(.str "body", .map [(.str "size", .int (10 ^ 4300))])] = .error .badValue :=
  long_field_refused (Numeral.not_isShort_pow (Nat.le_refl 4300))

end Wire
end ClientBindings
