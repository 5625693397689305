import ClientBindings.Proofs.Shown
import ClientBindings.Proofs.Source.TextLiteral

/-! What stands between the bars of an annotation. A bar separates nothing inside of brackets or of a literal. -/

namespace ClientBindings.Alternatives

open Text

/-- The pieces of a text between bars with a blank on either side. The text may begin inside of a literal that a
quote closes, and inside of so many brackets. -/
def split : Option Char → Nat → List Char → List (List Char)
  | _, _, [] => [[]]
  | some quote, depth, '\\' :: c :: cs => (split (some quote) depth cs).modifyHead ('\\' :: c :: ·)
  | some quote, depth, c :: cs => (split (if c = quote then none else some quote) depth cs).modifyHead (c :: ·)
  | none, 0, ' ' :: '|' :: ' ' :: cs => [] :: split none 0 cs
  | none, depth, c :: cs =>
    (if c = '"' ∨ c = '\'' then split (some c) depth cs
    else if c = '[' then split none (depth + 1) cs
    else if c = ']' then split none (depth - 1) cs
    else split none depth cs).modifyHead (c :: ·)

variable {q r t : Option Char} {d e f : Nat} {c quote : Char} {cs ds : List Char}

/-- Nothing in a text separates: it is read from one state to another, and what follows is split from there. -/
def Passes (q : Option Char) (d : Nat) (cs : List Char) (r : Option Char) (e : Nat) : Prop :=
  ∀ rest, split q d (cs ++ rest) = (split r e rest).modifyHead (cs ++ ·)

theorem passes_nil : Passes q d [] q d := by
  intro rest
  rw [List.nil_append]
  cases split q d rest <;> rfl

theorem Passes.append (hcs : Passes q d cs r e) (hds : Passes r e ds t f) : Passes q d (cs ++ ds) t f := by
  intro rest
  rw [List.append_assoc, hcs, hds, List.modifyHead_modifyHead]
  congr 1
  funext piece
  exact (List.append_assoc cs ds piece).symm

theorem Passes.cons (hc : Passes q d [c] r e) (hcs : Passes r e cs t f) : Passes q d (c :: cs) t f := hc.append hcs

/-! ## Characters -/

/-- Neither a quote nor a bracket. -/
def isInner (c : Char) : Bool := c != '"' && c != '\'' && c != '[' && c != ']'

theorem isInner_iff : isInner c = true ↔ c ∉ ['"', '\'', '[', ']'] := by
  simp [isInner, and_assoc]

/-- A property that neither quotes nor brackets have is one of inner characters. -/
theorem isInner_of {p : Char → Bool} (hmarks : (['"', '\'', '[', ']'].any p) = false) (h : p c = true) :
    isInner c = true :=
  isInner_iff.mpr fun hmem => List.any_eq_false.mp hmarks c hmem h

/-- Inner characters other than blanks. -/
def isSolid (c : Char) : Bool := isInner c && c != ' '

theorem split_cons (h : d = 0 → c ≠ ' ') (cs : List Char) : split none d (c :: cs) =
    (if c = '"' ∨ c = '\'' then split (some c) d cs
    else if c = '[' then split none (d + 1) cs
    else if c = ']' then split none (d - 1) cs
    else split none d cs).modifyHead (c :: ·) := by
  rw [split]
  rintro _ hd rfl _
  exact h hd rfl

theorem passes_inner (hc : isInner c = true) (h : d = 0 → c ≠ ' ') : Passes none d [c] none d := by
  have hne := isInner_iff.mp hc
  simp only [List.mem_cons, List.not_mem_nil, or_false, not_or] at hne
  obtain ⟨hdouble, hsingle, hopen, hclose⟩ := hne
  intro rest
  rw [List.singleton_append, split_cons h, if_neg (not_or.mpr ⟨hdouble, hsingle⟩), if_neg hopen, if_neg hclose]
  rfl

theorem passes_open : Passes none d ['['] none (d + 1) := fun _ => split_cons (fun _ => by decide) _

theorem passes_close : Passes none (d + 1) [']'] none d := fun _ => split_cons (fun _ => by decide) _

theorem passes_opening (hquote : quote = '"' ∨ quote = '\'') : Passes none d [quote] (some quote) d := by
  intro rest
  rw [List.singleton_append, split_cons, if_pos hquote]
  · rfl
  · rintro - rfl
    exact absurd hquote (by decide)

theorem split_inside (hc : c ≠ '\\') (cs : List Char) : split (some quote) d (c :: cs) =
    (split (if c = quote then none else some quote) d cs).modifyHead (c :: ·) := by
  rw [split]
  exact fun _ _ heq => absurd heq hc

theorem passes_closing (hquote : quote = '"' ∨ quote = '\'') : Passes (some quote) d [quote] none d := by
  intro rest
  rw [List.singleton_append, split_inside, if_pos rfl]
  · rfl
  · rintro rfl
    exact absurd hquote (by decide)

theorem passes_inside (hquote : c ≠ quote) (hbackslash : c ≠ '\\') : Passes (some quote) d [c] (some quote) d := by
  intro rest
  rw [List.singleton_append, split_inside hbackslash, if_neg hquote]
  rfl

theorem passes_escape (c : Char) : Passes (some quote) d ['\\', c] (some quote) d := fun _ => rfl

/-! ## Texts -/

/-- What stays in one piece wherever it stands. -/
def Solid (cs : List Char) : Prop := ∀ d, Passes none d cs none d

/-- What stays in one piece inside of brackets. -/
def Balanced (cs : List Char) : Prop := ∀ d, Passes none (d + 1) cs none (d + 1)

/-- What stays in one piece inside of a literal, which it does not close. -/
def Inside (quote : Char) (cs : List Char) : Prop := ∀ d, Passes (some quote) d cs (some quote) d

theorem Solid.balanced (h : Solid cs) : Balanced cs := fun d => h (d + 1)

theorem Balanced.nil : Balanced [] := fun _ => passes_nil

theorem Balanced.append (hcs : Balanced cs) (hds : Balanced ds) : Balanced (cs ++ ds) :=
  fun d => (hcs d).append (hds d)

theorem balanced_of_all (h : cs.all isInner = true) : Balanced cs := by
  induction cs with
  | nil => exact .nil
  | cons c cs ih =>
    obtain ⟨hc, hcs⟩ := Bool.and_eq_true_iff.mp h
    exact fun d => .cons (passes_inner hc nofun) (ih hcs d)

theorem solid_of_all (h : cs.all isSolid = true) : Solid cs := by
  induction cs with
  | nil => exact fun _ => passes_nil
  | cons c cs ih =>
    obtain ⟨hc, hcs⟩ := Bool.and_eq_true_iff.mp h
    obtain ⟨hinner, hblank⟩ := Bool.and_eq_true_iff.mp hc
    exact fun d => .cons (passes_inner hinner fun _ => bne_iff_ne.mp hblank) (ih hcs d)

/-- What is in brackets stays together. -/
theorem Solid.brackets (hhead : Solid cs) (harguments : Balanced ds) : Solid (cs ++ '[' :: (ds ++ [']'])) :=
  fun d => (hhead d).append (.cons passes_open ((harguments d).append passes_close))

theorem Balanced.join {separator : List Char} (hseparator : Balanced separator) {pieces : List (List Char)}
    (h : ∀ piece ∈ pieces, Balanced piece) : Balanced (join separator pieces) := by
  induction pieces with
  | nil => exact .nil
  | cons piece pieces ih =>
    obtain ⟨hpiece, hpieces⟩ := List.forall_mem_cons.mp h
    cases pieces with
    | nil => rwa [Text.join, List.intercalate_singleton]
    | cons next pieces =>
      rw [join_cons_cons]
      exact (hpiece.append hseparator).append (ih hpieces)

/-! ## Literals -/

theorem Inside.append (hcs : Inside quote cs) (hds : Inside quote ds) : Inside quote (cs ++ ds) :=
  fun d => (hcs d).append (hds d)

theorem inside_of_forall (h : ∀ c ∈ cs, c ≠ quote ∧ c ≠ '\\') : Inside quote cs := by
  induction cs with
  | nil => exact fun _ => passes_nil
  | cons c cs ih =>
    obtain ⟨⟨hquote, hbackslash⟩, hcs⟩ := List.forall_mem_cons.mp h
    exact fun d => .cons (passes_inside hquote hbackslash) (ih hcs d)

theorem inside_flatMap {f : Char → List Char} (h : ∀ c, Inside quote (f c)) (cs : List Char) :
    Inside quote (cs.flatMap f) := by
  induction cs with
  | nil => exact fun _ => passes_nil
  | cons c cs ih =>
    rw [List.flatMap_cons]
    exact (h c).append ih

/-- A literal is balanced if its quote does not occur but escaped. -/
theorem Inside.quoted (hquote : quote = '"' ∨ quote = '\'') (h : Inside quote cs) :
    Balanced (quote :: (cs ++ [quote])) :=
  fun d => .cons (passes_opening hquote) ((h (d + 1)).append (passes_closing hquote))

theorem inside_jsonChar (c : Char) : Inside '"' (Quoted.jsonChar c) := by
  rcases Quoted.jsonChar_cases c with ⟨mark, hchars, -⟩ | ⟨hcontrol, hchars⟩ | ⟨-, hquote, hbackslash, hchars⟩
  · rw [hchars]
    exact fun _ => passes_escape mark
  · obtain ⟨x, y, z, w, hhex, -, hdigits⟩ := Quoted.hex_control c.toNat hcontrol
    rw [hchars, hhex]
    exact fun d => (passes_escape 'u').append (inside_of_forall (fun c hc => (hdigits c hc).2) d)
  · rw [hchars]
    exact fun _ => passes_inside hquote hbackslash

theorem inside_hex (hquote : quote = '"' ∨ quote = '\'') (width n : Nat) : Inside quote (Quoted.hex width n) := by
  rcases hquote with rfl | rfl <;> exact inside_of_forall (Quoted.forall_mem_hex (by decide) width n)

theorem inside_escaped (hquote : quote = '"' ∨ quote = '\'') (printable : Bool) (c : Char) :
    Inside quote (Quoted.escaped quote printable c) := by
  have hcode : ∀ mark width n, Inside quote ('\\' :: mark :: Quoted.hex width n) :=
    fun mark width n d => (passes_escape mark).append (inside_hex hquote width n d)
  unfold Quoted.escaped
  split_ifs with hmark
  · exact fun _ => passes_escape c
  · exact fun _ => passes_escape 'n'
  · exact fun _ => passes_escape 'r'
  · exact fun _ => passes_escape 't'
  · obtain ⟨hc, hbackslash⟩ := not_or.mp hmark
    exact fun _ => passes_inside hc hbackslash
  · exact hcode 'x' 2 _
  · exact hcode 'u' 4 _
  · exact hcode 'U' 8 _

theorem balanced_shownBytes (bs : List UInt8) : Balanced (Quoted.shownBytes bs) := by
  have hquote : ∀ hasSingle hasDouble, Quoted.quoteFor hasSingle hasDouble = '"' ∨
      Quoted.quoteFor hasSingle hasDouble = '\'' := by decide
  have hmark : Balanced ['b'] := balanced_of_all (by decide)
  exact hmark.append (Inside.quoted (hquote _ _) (inside_flatMap (fun c => inside_escaped (hquote _ _) _ c) _))

theorem balanced_spelling (v : Scalar) : Balanced (Literal.spelling v).toList := by
  by_cases htext : ∃ text, v = .str text
  · obtain ⟨text, rfl⟩ := htext
    rw [Literal.spelling, Literal.toList_quoted]
    exact Inside.quoted (.inl rfl) (inside_flatMap inside_jsonChar text.toList)
  · have hshown : Literal.spelling v = v.shown := by
      rw [Literal.spelling]
      exact fun text hv => htext ⟨text, hv⟩
    rw [hshown, Scalar.shown, String.toList_ofList]
    rcases v.shownChars_cases with ⟨text, hv, -⟩ | ⟨bytes, -, hchars⟩ | hplain
    · exact absurd ⟨text, hv⟩ htext
    · rw [hchars]
      exact balanced_shownBytes bytes
    · exact balanced_of_all (List.all_eq_true.mpr fun c hc => isInner_of (by decide) (hplain c hc))

/-! ## Joined texts -/

/-- Solid texts joined by bars are split into themselves. -/
theorem split_join {pieces : List (List Char)} (hne : pieces ≠ []) (h : ∀ piece ∈ pieces, Solid piece) :
    split none 0 (join [' ', '|', ' '] pieces) = pieces := by
  induction pieces with
  | nil => exact absurd rfl hne
  | cons piece pieces ih =>
    obtain ⟨hpiece, hpieces⟩ := List.forall_mem_cons.mp h
    cases pieces with
    | nil =>
      have hwhole := hpiece 0 []
      rw [join, List.intercalate_singleton]
      rwa [List.append_nil, split, List.modifyHead_cons, List.append_nil] at hwhole
    | cons next pieces =>
      rw [join_cons_cons, List.append_assoc, hpiece 0]
      show ([] :: split none 0 (join [' ', '|', ' '] (next :: pieces))).modifyHead (piece ++ ·) = _
      rw [ih (List.cons_ne_nil _ _) hpieces, List.modifyHead_cons, List.append_nil]

end Alternatives

/-- The alternatives that an annotation names. -/
def alternatives (text : String) : List String := (Alternatives.split none 0 text.toList).map String.ofList

theorem alternatives_intercalate {texts : List String} (hne : texts ≠ [])
    (h : ∀ text ∈ texts, Alternatives.Solid text.toList) : alternatives (" | ".intercalate texts) = texts := by
  have hpieces : Alternatives.split none 0 (Text.join [' ', '|', ' '] (texts.map String.toList)) =
      texts.map String.toList := by
    apply Alternatives.split_join
    · rwa [ne_eq, List.map_eq_nil_iff]
    · exact List.forall_mem_map.mpr h
  have htexts : String.ofList ∘ String.toList = id := by
    funext text
    exact String.ofList_toList
  rw [alternatives, String.toList_intercalate]
  show (Alternatives.split none 0 (Text.join [' ', '|', ' '] (texts.map String.toList))).map _ = _
  rw [hpieces, List.map_map, htexts, List.map_id]

/-- Bars in brackets, and in literals, belong to an alternative. -/
example : alternatives "list[A | B] | Literal[\"x | \\\"]\", 1] | None" =
    ["list[A | B]", "Literal[\"x | \\\"]\", 1]", "None"] := by
  decide +kernel

end ClientBindings
