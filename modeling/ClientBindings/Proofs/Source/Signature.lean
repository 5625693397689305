import ClientBindings.Proofs.Identifier
import ClientBindings.Source.Signature

/-! Parameter lists. The loop over the arguments knows two things of those before: whether one of them may be
left out, and whether the mark was set. So the mark stands where the language first needs it, or nowhere, and a
call that passes every argument by name reaches all of them. -/

namespace ClientBindings.Argument

open Text

/-- Whether an argument may stand in front of another where both can be passed by place: one without a
default does not follow one with a default. -/
def MayPrecede (a b : Argument) : Prop := b.required = true → a.required = true

/-- The mark and the arguments behind it; there is no mark at the end. -/
def markedOff : List Argument → List String
  | [] => []
  | a :: rest => "*" :: (a :: rest).map text

/-- Arguments taken apart at the mark, given whether an optional one came before them. -/
structure Parted (optionalSeen : Bool) (arguments front behind : List Argument) : Prop where
  whole : front ++ behind = arguments
  ordered : front.Pairwise MayPrecede
  optional : optionalSeen = true → ∀ a ∈ front, a.required = false
  first : ∀ b ∈ behind.head?, b.required = true ∧ (optionalSeen = true ∨ ∃ a ∈ front, a.required = false)

variable {a : Argument} {arguments rest front behind : List Argument} {optionalSeen : Bool}

/-! ## The loop -/

namespace Parted

theorem nil : Parted optionalSeen [] [] [] where
  whole := rfl
  ordered := .nil
  optional _ a ha := absurd ha List.not_mem_nil
  first b hb := by cases hb

/-- A required argument behind an optional one is the first behind the mark. -/
theorem mark (h : a.required = true) : Parted true (a :: rest) [] (a :: rest) where
  whole := rfl
  ordered := .nil
  optional _ a ha := absurd ha List.not_mem_nil
  first b hb := by
    obtain rfl := Option.some.inj hb
    exact ⟨h, .inl rfl⟩

/-- Any other argument stays in front of the mark. -/
theorem pass (h : optionalSeen = true → a.required = false)
    (hrest : Parted (optionalSeen || !a.required) rest front behind) :
    Parted optionalSeen (a :: rest) (a :: front) behind where
  whole := by rw [List.cons_append, hrest.whole]
  ordered := by
    refine List.pairwise_cons.mpr ⟨fun b hb hrequired => ?_, hrest.ordered⟩
    by_contra hoptional
    rw [hrest.optional (by simp [hoptional]) b hb] at hrequired
    cases hrequired
  optional hseen b hb := by
    rcases List.mem_cons.mp hb with rfl | hb
    · exact h hseen
    · exact hrest.optional (by rw [hseen, Bool.true_or]) b hb
  first b hb := by
    obtain ⟨hrequired, hseen | ⟨c, hc, hoptional⟩⟩ := hrest.first b hb
    · refine ⟨hrequired, ?_⟩
      rcases Bool.or_eq_true_iff.mp hseen with hseen | hoptional
      · exact .inl hseen
      · exact .inr ⟨a, List.mem_cons_self, by rwa [Bool.not_eq_true'] at hoptional⟩
    · exact ⟨hrequired, .inr ⟨c, List.mem_cons_of_mem a hc, hoptional⟩⟩

end Parted

/-- Behind the mark all arguments follow as they are. -/
theorem signatureFrom_marked (optionalSeen : Bool) (arguments : List Argument) :
    signatureFrom optionalSeen true arguments = arguments.map text := by
  induction arguments generalizing optionalSeen with
  | nil => rfl
  | cons a rest ih => simp [signatureFrom, ih]

theorem exists_parted (optionalSeen : Bool) (arguments : List Argument) : ∃ front behind,
    Parted optionalSeen arguments front behind ∧
      signatureFrom optionalSeen false arguments = front.map text ++ markedOff behind := by
  -- As long as the mark is not set, the other flag says all that matters of the arguments before.
  induction arguments generalizing optionalSeen with
  | nil => exact ⟨[], [], .nil, rfl⟩
  | cons a rest ih =>
    by_cases hmarks : a.required = true ∧ optionalSeen = true
    · obtain ⟨hrequired, rfl⟩ := hmarks
      refine ⟨[], a :: rest, .mark hrequired, ?_⟩
      simp [signatureFrom, hrequired, signatureFrom_marked, markedOff]
    · obtain ⟨front, behind, hparted, hrest⟩ := ih (optionalSeen || !a.required)
      refine ⟨a :: front, behind, .pass (fun hseen => ?_) hparted, ?_⟩
      · exact Bool.eq_false_iff.mpr fun hrequired => hmarks ⟨hrequired, hseen⟩
      · have hnone : (a.required && optionalSeen) = false := by
          rw [← Bool.not_eq_true, Bool.and_eq_true]
          exact hmarks
        simp [signatureFrom, hnone, hrest]

/-! ## The mark -/

theorem text_ne_mark (a : Argument) : a.text ≠ "*" := by
  intro h
  have hcolon : ':' ∈ a.text.toList := by simp [text]
  rw [h] at hcolon
  exact absurd hcolon (by decide)

theorem mark_not_mem_map_text (arguments : List Argument) : "*" ∉ arguments.map text := by
  intro h
  obtain ⟨a, -, ha⟩ := List.mem_map.mp h
  exact text_ne_mark a ha

theorem filter_map_text (arguments : List Argument) :
    (arguments.map text).filter (· != "*") = arguments.map text := by
  rw [List.filter_eq_self]
  exact fun item hitem => bne_iff_ne.mpr (ne_of_mem_of_not_mem hitem (mark_not_mem_map_text arguments))

theorem filter_markedOff (behind : List Argument) : (markedOff behind).filter (· != "*") = behind.map text := by
  cases behind with
  | nil => rfl
  | cons a rest => rw [markedOff, List.filter_cons_of_neg (by simp), filter_map_text]

theorem count_markedOff (behind : List Argument) : (markedOff behind).count "*" ≤ 1 := by
  cases behind with
  | nil => exact Nat.zero_le 1
  | cons a rest =>
    rw [markedOff, List.count_cons_self, List.count_eq_zero_of_not_mem (mark_not_mem_map_text _)]

theorem mark_mem_markedOff_iff : "*" ∈ markedOff behind ↔ behind ≠ [] := by
  cases behind with
  | nil => simp [markedOff]
  | cons a rest => simp [markedOff]

theorem getLast?_ne_mark (front behind : List Argument) :
    (front.map text ++ markedOff behind).getLast? ≠ some "*" := by
  intro hlast
  cases behind with
  | nil =>
    rw [markedOff, List.append_nil] at hlast
    exact mark_not_mem_map_text front (List.mem_of_getLast? hlast)
  | cons a rest =>
    rw [markedOff, List.append_cons, List.getLast?_append_of_ne_nil _ (by simp)] at hlast
    exact mark_not_mem_map_text (a :: rest) (List.mem_of_getLast? hlast)

/-- Nothing is left for the part behind the mark exactly where all arguments are in order. -/
theorem Parted.behind_eq_nil_iff (h : Parted false arguments front behind) :
    behind = [] ↔ arguments.Pairwise MayPrecede := by
  obtain rfl := h.whole
  cases behind with
  | nil => simpa using h.ordered
  | cons b rest =>
    refine iff_of_false (List.cons_ne_nil b rest) fun hordered => ?_
    obtain ⟨hrequired, hseen | ⟨a, ha, hoptional⟩⟩ := h.first b rfl
    · cases hseen
    · have hboth := (List.pairwise_append.mp hordered).2.2 a ha b List.mem_cons_self hrequired
      rw [hoptional] at hboth
      cases hboth

/-! ## Calls -/

/-- The keywords of a call, each with what is passed for it. -/
def keywordsOf (cs : List Char) : List (List Char × List Char) :=
  if cs.isEmpty then [] else (splitOn ',' (cs.filter (· != ' '))).map (cut '=')

/-- The name that an item of a parameter list gives to its argument. -/
def declaredName (item : String) : List Char := (cut ':' item.toList).1

theorem filter_join {pieces : List (List Char)} (h : ∀ piece ∈ pieces, ' ' ∉ piece) :
    (join [',', ' '] pieces).filter (· != ' ') = join [','] pieces := by
  have hkept : ∀ piece ∈ pieces, piece.filter (· != ' ') = piece := fun piece hpiece =>
    List.filter_eq_self.mpr fun c hc => bne_iff_ne.mpr (ne_of_mem_of_not_mem hc (h piece hpiece))
  induction pieces with
  | nil => rfl
  | cons piece pieces ih =>
    have hpiece := hkept piece List.mem_cons_self
    cases pieces with
    | nil => rw [join, join, List.intercalate_singleton, List.intercalate_singleton, hpiece]
    | cons next pieces =>
      have hrest := ih (fun p hp => h p (List.mem_cons_of_mem _ hp)) fun p hp => hkept p (List.mem_cons_of_mem _ hp)
      rw [join_cons_cons, join_cons_cons, List.filter_append, List.filter_append, hpiece, hrest]
      rfl

theorem declaredName_text (h : ':' ∉ a.name.toList) : declaredName a.text = a.name.toList := by
  have htext : a.text.toList =
      a.name.toList ++ ':' :: ' ' :: (a.type ++ if a.required then "" else " | None = None").toList := by
    simp [text]
  rw [declaredName, htext, cut_append h]

theorem keywordsOf_forwarded (h : ∀ a ∈ arguments, Identifier.isValid a.name = true) :
    keywordsOf (forwarded arguments).toList = arguments.map fun a => (a.name.toList, a.name.toList) := by
  by_cases hnone : arguments = []
  · rw [hnone]
    rfl
  have hapart : ∀ {c : Char}, Unicode.isIdentifierPart c = false → c ≠ '=' →
      ∀ piece ∈ arguments.map fun a => a.name.toList ++ '=' :: a.name.toList, c ∉ piece := by
    intro c hc hne piece hpiece
    obtain ⟨a, ha, rfl⟩ := List.mem_map.mp hpiece
    have hname := Identifier.not_mem_of_isValid (h a ha) hc
    simp [hname, hne]
  have htext : (forwarded arguments).toList =
      join [',', ' '] (arguments.map fun a => a.name.toList ++ '=' :: a.name.toList) := by
    rw [forwarded, String.toList_intercalate, List.map_map, join]
    simp [Function.comp_def]
  have hsome : (forwarded arguments).toList.isEmpty = false := by
    obtain ⟨a, rest, rfl⟩ := List.exists_cons_of_ne_nil hnone
    rw [htext]
    cases rest <;> simp [join]
  rw [keywordsOf, hsome, htext, filter_join (hapart (by decide) (by decide)),
    splitOn_join (by simpa using hnone) (hapart (by decide) (by decide)), List.map_map]
  refine List.map_congr_left fun a ha => ?_
  exact cut_append (Identifier.not_mem_of_isValid (h a ha) (by decide)) _

/-- The items of a parameter list for some arguments, and the call that passes them on. -/
structure IsSignature (arguments : List Argument) (items : List String) (call : String) : Prop where
  /-- Beside the mark, every argument is listed once and in order. -/
  listed : items.filter (· != "*") = arguments.map text
  once : items.count "*" ≤ 1
  needed : "*" ∈ items ↔ ∃ a b, [a, b].Sublist arguments ∧ a.required = false ∧ b.required = true
  /-- The arguments in front of the mark are in order; the one right behind it is required and follows an
  optional one. -/
  placed : ∃ front behind, front ++ behind = arguments ∧ items = front.map text ++ markedOff behind ∧
    front.Pairwise MayPrecede ∧ ∀ b ∈ behind.head?, b.required = true ∧ ∃ a ∈ front, a.required = false
  followed : items.getLast? ≠ some "*"
  passed : call = ", ".intercalate (arguments.map fun a => a.name ++ "=" ++ a.name)
  /-- The call names what the items declare and passes for it what has this name. -/
  named : (∀ a ∈ arguments, Identifier.isValid a.name = true) →
    keywordsOf call.toList = (items.filter (· != "*")).map fun item => (declaredName item, declaredName item)

theorem signature_isSignature (arguments : List Argument) :
    IsSignature arguments (signature arguments) (forwarded arguments) := by
  obtain ⟨front, behind, hparted, hitems⟩ := exists_parted false arguments
  rw [← signature] at hitems
  have hlisted : (signature arguments).filter (· != "*") = arguments.map text := by
    rw [hitems, List.filter_append, filter_map_text, filter_markedOff, ← List.map_append, hparted.whole]
  have hmark : "*" ∈ signature arguments ↔ behind ≠ [] := by
    rw [hitems, List.mem_append, mark_mem_markedOff_iff]
    exact or_iff_right (mark_not_mem_map_text front)
  constructor
  case listed => exact hlisted
  case once =>
    rw [hitems, List.count_append, List.count_eq_zero_of_not_mem (mark_not_mem_map_text front), Nat.zero_add]
    exact count_markedOff behind
  case needed =>
    rw [hmark, ne_eq, hparted.behind_eq_nil_iff, List.pairwise_iff_forall_sublist]
    simp [MayPrecede, and_comm]
  case placed =>
    refine ⟨front, behind, hparted.whole, hitems, hparted.ordered, fun b hb => ?_⟩
    obtain ⟨hrequired, hseen | hoptional⟩ := hparted.first b hb
    · cases hseen
    · exact ⟨hrequired, hoptional⟩
  case followed =>
    rw [hitems]
    exact getLast?_ne_mark front behind
  case passed => rfl
  case named =>
    intro hnames
    rw [keywordsOf_forwarded hnames, hlisted, List.map_map]
    refine List.map_congr_left fun a ha => ?_
    rw [Function.comp_apply, declaredName_text (Identifier.not_mem_of_isValid (hnames a ha) (by decide))]

/-- The body has to be passed by name because the query may be left out. -/
theorem signature_isSignature_body :
    let arguments : List Argument :=
      [⟨"query", "Q", false⟩, ⟨"body", "B", true⟩, ⟨"headers", "H", true⟩, ⟨"config", "C", false⟩]
    (∀ a ∈ arguments, Identifier.isValid a.name = true) ∧
    signature arguments = ["query: Q | None = None", "*", "body: B", "headers: H", "config: C | None = None"] ∧
    keywordsOf (forwarded arguments).toList =
      ["query", "body", "headers", "config"].map fun name => (name.toList, name.toList) := by
  intro arguments
  have hnames : ∀ a ∈ arguments, Identifier.isValid a.name = true := by decide
  have hitems : signature arguments =
      ["query: Q | None = None", "*", "body: B", "headers: H", "config: C | None = None"] := by decide
  refine ⟨hnames, hitems, ?_⟩
  rw [(signature_isSignature arguments).named hnames, hitems]
  decide

end ClientBindings.Argument
