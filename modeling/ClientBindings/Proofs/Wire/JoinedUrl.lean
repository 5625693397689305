import ClientBindings.Proofs.Text
import ClientBindings.Wire.Url

/-! Joined parts of a URL. A part loses its slashes on the sides where it meets others, so what is joined two
at a time is joined in the same way, unless nothing but slashes stands between other parts. -/

namespace ClientBindings.Wire

open Text

variable {part before url : List Char} {parts : List (List Char)}

/-- The parts that are there. -/
def present (parts : List (Option String)) : List String := (parts.filterMap id).filter (!·.isEmpty)

/-- The parts joined two at a time, from the left. -/
def joinedByTwos : List String → String
  | [] => ""
  | first :: rest => rest.foldl (fun url part => joinUrl [some url, some part]) first

/-- What a part leaves between two others. -/
def content (part : List Char) : List Char := trimSlashes (part.dropWhile isSlash)

/-- A part that leaves nothing between its slashes, or a line end alone. -/
def IsBare (part : List Char) : Prop := part.dropWhile isSlash = [] ∨ part.dropWhile isSlash = ['\n']

instance : DecidablePred IsBare := fun _ => inferInstanceAs (Decidable (_ ∨ _))

def closingSlashes (part : List Char) : List Char := (part.reverse.takeWhile isSlash).reverse

/-- Contents with one slash between each other, in the slashes that open the first part and close the last. -/
def laidOut (parts : List (List Char)) : List Char :=
  match parts.getLast? with
  | none => []
  | some last => (parts.headD []).takeWhile isSlash ++ join ['/'] (parts.dropLast.map content ++ [trim isSlash last])
      ++ closingSlashes last

/-! ## Slashes at the end -/

theorem isSlash_iff {c : Char} : isSlash c = true ↔ c = '/' := beq_iff_eq

theorem trimSlashes_concat_newline (part : List Char) :
    trimSlashes (part ++ ['\n']) = trimEnd isSlash part ++ ['\n'] := by
  rw [trimSlashes, List.getLast?_concat, if_pos (by decide), List.dropLast_concat]

theorem trimSlashes_of_ne (h : part.getLast? ≠ some '\n') : trimSlashes part = trimEnd isSlash part := by
  rw [trimSlashes, if_neg]
  simpa using h

theorem trimEnd_slash (part : List Char) : trimEnd isSlash (part ++ ['/']) = trimEnd isSlash part := by
  apply trimEnd_append
  simp [isSlash]

theorem length_trimEnd_le (part : List Char) : (trimEnd isSlash part).length ≤ part.length := by
  obtain ⟨blanks, hpart, -⟩ := exists_trimEnd isSlash part
  have hlength := congrArg List.length hpart
  rw [List.length_append] at hlength
  omega

theorem getLast?_trimSlashes (part : List Char) : (trimSlashes part).getLast? ≠ some '/' := by
  by_cases h : part.getLast? = some '\n'
  · obtain ⟨front, rfl⟩ := List.getLast?_eq_some_iff.mp h
    rw [trimSlashes_concat_newline, List.getLast?_concat]
    decide
  · obtain ⟨-, -, -, hlast⟩ := exists_trimEnd isSlash part
    rw [trimSlashes_of_ne h]
    intro hslash
    exact absurd (hlast '/' hslash) (by decide)

/-- What is in front of a character that is no slash stays, unless that is itself the line end at the end. -/
theorem exists_trimSlashes {c : Char} {rest : List Char} (hc : isSlash c = false) (h : c :: rest ≠ ['\n']) :
    ∃ front, ∀ before, trimSlashes (before ++ c :: rest) = before ++ c :: front := by
  by_cases hlast : (c :: rest).getLast? = some '\n'
  · obtain ⟨front, hfront⟩ := List.getLast?_eq_some_iff.mp hlast
    cases front with
    | nil => exact absurd hfront h
    | cons d front =>
      obtain ⟨rfl, rfl⟩ := List.cons.inj hfront
      refine ⟨trimEnd isSlash front ++ ['\n'], fun before => ?_⟩
      rw [hfront, ← List.append_assoc, trimSlashes_concat_newline, trimEnd_append_cons hc, List.append_assoc]
      rfl
  · refine ⟨trimEnd isSlash rest, fun before => ?_⟩
    rw [trimSlashes_of_ne, trimEnd_append_cons hc]
    rwa [List.getLast?_append, List.getLast?_cons, Option.some_or, ← List.getLast?_cons]

/-! ## What is left of a part -/

/-- A part that is not bare goes on with something else than a slash behind its first slashes. -/
theorem exists_of_not_isBare (h : ¬ IsBare part) : ∃ c rest, part.dropWhile isSlash = c :: rest ∧
    isSlash c = false ∧ c :: rest ≠ ['\n'] := by
  obtain ⟨hnil, hnewline⟩ := not_or.mp h
  have hhead := List.head?_dropWhile_not isSlash part
  cases hkept : part.dropWhile isSlash with
  | nil => exact absurd hkept hnil
  | cons c rest =>
    rw [hkept] at hhead hnewline
    exact ⟨c, rest, rfl, by simpa using hhead, hnewline⟩

theorem trimSlashes_append_dropWhile (h : ¬ IsBare part) (before : List Char) :
    trimSlashes (before ++ part.dropWhile isSlash) = before ++ content part := by
  obtain ⟨c, rest, hkept, hc, hne⟩ := exists_of_not_isBare h
  obtain ⟨front, hfront⟩ := exists_trimSlashes hc hne
  have halone := hfront []
  rw [List.nil_append, List.nil_append] at halone
  rw [content, hkept, hfront, halone]

/-- In front of a bare part the slashes at the end are trimmed off as well. -/
theorem length_trimSlashes_lt (h : IsBare part) (before : List Char) :
    (trimSlashes (before ++ '/' :: part.dropWhile isSlash)).length < before.length + 1 + (content part).length := by
  have hle := length_trimEnd_le before
  rcases h with h | h
  · have htrimmed : trimSlashes (before ++ ['/']) = trimEnd isSlash before := by
      rw [trimSlashes_of_ne, trimEnd_slash]
      rw [List.getLast?_concat]
      decide
    rw [h, htrimmed]
    omega
  · have hwhole : before ++ ['/', '\n'] = (before ++ ['/']) ++ ['\n'] := by simp
    have hcontent : content part = ['\n'] := by rw [content, h]; decide
    rw [h, hwhole, trimSlashes_concat_newline, trimEnd_slash, hcontent, List.length_append]
    simp only [List.length_singleton]
    omega

/-- What a part leaves begins and ends with no slash. -/
theorem content_apart (part : List Char) : (content part).head? ≠ some '/' ∧ (content part).getLast? ≠ some '/' := by
  refine ⟨?_, getLast?_trimSlashes _⟩
  by_cases h : IsBare part
  · rcases h with h | h <;> rw [content, h] <;> decide
  · obtain ⟨c, rest, hkept, hc, hne⟩ := exists_of_not_isBare h
    obtain ⟨front, hfront⟩ := exists_trimSlashes hc hne
    have halone := hfront []
    rw [content, hkept, ← List.nil_append (c :: rest), halone]
    rintro ⟨⟩
    exact absurd hc (by decide)

theorem trim_apart (part : List Char) :
    (trim isSlash part).head? ≠ some '/' ∧ (trim isSlash part).getLast? ≠ some '/' := by
  obtain ⟨blanks, hparts, -, hlast⟩ := exists_trimEnd isSlash (part.dropWhile isSlash)
  constructor
  · intro hslash
    have hhead := List.head?_dropWhile_not isSlash part
    have hfirst : (part.dropWhile isSlash).head? = some '/' := by
      rw [hparts, List.head?_append, ← trim, hslash]
      rfl
    rw [hfirst] at hhead
    exact absurd hhead (by decide)
  · intro hslash
    exact absurd (hlast '/' hslash) (by decide)

/-! ## What is joined -/

theorem join_cons_flatMap (piece : List Char) (pieces : List (List Char)) :
    join ['/'] (piece :: pieces) = piece ++ pieces.flatMap ('/' :: ·) := by
  induction pieces generalizing piece with
  | nil => rw [join, List.intercalate_singleton, List.flatMap_nil, List.append_nil]
  | cons next pieces ih => rw [join_cons_cons, ih, List.flatMap_cons, List.append_assoc, List.singleton_append,
      List.cons_append]

theorem trimParts_false (inner : List (List Char)) (last : List Char) :
    trimParts false (inner ++ [last]) = inner.map content ++ [last.dropWhile isSlash] := by
  induction inner with
  | nil => rfl
  | cons part inner ih =>
    rw [List.cons_append, trimParts, ih]
    · rfl
    · simp

theorem trimParts_true (first : List Char) (inner : List (List Char)) (last : List Char) :
    trimParts true (first :: (inner ++ [last])) =
      trimSlashes first :: (inner.map content ++ [last.dropWhile isSlash]) := by
  rw [trimParts, trimParts_false]
  · rfl
  · simp

/-- The parts of a URL up to the last one, trimmed at the end. -/
def opening (first : List Char) (inner : List (List Char)) : List Char :=
  trimSlashes first ++ (inner.map content).flatMap ('/' :: ·)

theorem join_trimParts (first : List Char) (inner : List (List Char)) (last : List Char) :
    join ['/'] (trimParts true (first :: (inner ++ [last]))) = opening first inner ++ '/' :: last.dropWhile isSlash := by
  rw [trimParts_true, join_cons_flatMap, List.flatMap_append, opening, List.append_assoc]
  simp

/-! ## What is joined two at a time -/

def joinTwo (url part : List Char) : List Char := trimSlashes url ++ '/' :: part.dropWhile isSlash

theorem trimSlashes_joinTwo (h : ¬ IsBare part) (url : List Char) :
    trimSlashes (joinTwo url part) = trimSlashes url ++ '/' :: content part := by
  have hstep := trimSlashes_append_dropWhile h (trimSlashes url ++ ['/'])
  rwa [List.append_assoc, List.append_assoc, List.singleton_append, List.singleton_append] at hstep

theorem length_trimSlashes_joinTwo (url part : List Char) :
    (trimSlashes (joinTwo url part)).length + (if IsBare part then 1 else 0) ≤
      (trimSlashes url).length + 1 + (content part).length := by
  by_cases h : IsBare part
  · have hshorter := length_trimSlashes_lt h (trimSlashes url)
    rw [if_pos h, joinTwo]
    omega
  · rw [if_neg h, trimSlashes_joinTwo h, List.length_append, List.length_cons]
    omega

theorem opening_cons (url part : List Char) (inner : List (List Char)) :
    opening url (part :: inner) = trimSlashes url ++ '/' :: content part ++ (inner.map content).flatMap ('/' :: ·) := by
  rw [opening, List.map_cons, List.flatMap_cons, List.append_assoc]

theorem trimSlashes_foldl {inner : List (List Char)} (h : ∀ part ∈ inner, ¬ IsBare part) (url : List Char) :
    trimSlashes (inner.foldl joinTwo url) = opening url inner := by
  induction inner generalizing url with
  | nil => exact (List.append_nil _).symm
  | cons part inner ih =>
    obtain ⟨hpart, hinner⟩ := List.forall_mem_cons.mp h
    rw [List.foldl_cons, ih hinner, opening, trimSlashes_joinTwo hpart, opening_cons]

/-- Every bare part makes the text shorter than it is when all parts are joined at once. -/
theorem length_foldl_add_countP (url : List Char) (inner : List (List Char)) :
    (trimSlashes (inner.foldl joinTwo url)).length + inner.countP (IsBare ·) ≤ (opening url inner).length := by
  induction inner generalizing url with
  | nil => exact Nat.le_of_eq (congrArg List.length (List.append_nil _).symm)
  | cons part inner ih =>
    have hrest := ih (joinTwo url part)
    have hpart := length_trimSlashes_joinTwo url part
    rw [opening, List.length_append] at hrest
    rw [List.foldl_cons, List.countP_cons, opening_cons, List.length_append, List.length_append, List.length_cons]
    simp only [decide_eq_true_eq]
    omega

theorem trimSlashes_foldl_eq_iff (url : List Char) (inner : List (List Char)) :
    trimSlashes (inner.foldl joinTwo url) = opening url inner ↔ ∀ part ∈ inner, ¬ IsBare part := by
  constructor
  · intro heq
    have hlength := length_foldl_add_countP url inner
    have hcount : inner.countP (IsBare ·) = 0 := by
      rw [heq] at hlength
      omega
    simpa using List.countP_eq_zero.mp hcount
  · exact fun h => trimSlashes_foldl h url

/-! ## Texts -/

theorem toList_joinUrl (parts : List (Option String)) :
    (joinUrl parts).toList = join ['/'] (trimParts true ((present parts).map String.toList)) :=
  String.toList_ofList

theorem ne_of_mem_present {parts : List (Option String)} {part : String} (h : part ∈ present parts) : part ≠ "" := by
  have hkept := (List.mem_filter.mp h).2
  rintro rfl
  exact absurd hkept (by decide)

theorem present_some {texts : List String} (h : ∀ text ∈ texts, text ≠ "") : present (texts.map some) = texts := by
  rw [present, List.filterMap_map, Function.id_comp, List.filterMap_some, List.filter_eq_self]
  intro text htext
  simpa using h text htext

theorem toList_joinedByTwos {first : String} {rest : List String} (hfirst : first ≠ "")
    (h : ∀ part ∈ rest, part ≠ "") :
    (joinedByTwos (first :: rest)).toList = (rest.map String.toList).foldl joinTwo first.toList := by
  induction rest generalizing first with
  | nil => rfl
  | cons part rest ih =>
    obtain ⟨hpart, hrest⟩ := List.forall_mem_cons.mp h
    have hpresent : present [some first, some part] = [first, part] :=
      present_some (List.forall_mem_cons.mpr ⟨hfirst, List.forall_mem_singleton.mpr hpart⟩)
    have hjoined : (joinUrl [some first, some part]).toList = joinTwo first.toList part.toList := by
      have htwo := join_trimParts first.toList [] part.toList
      rw [toList_joinUrl, hpresent, joinTwo]
      simpa [opening] using htwo
    have hne : joinUrl [some first, some part] ≠ "" := by
      intro hempty
      rw [hempty] at hjoined
      simp [joinTwo] at hjoined
    have hstep := ih hne hrest
    rw [hjoined] at hstep
    exact hstep

/-! ## Outer slashes -/

theorem trimEnd_eq_nil (h : ∀ c ∈ part, isSlash c = true) : trimEnd isSlash part = [] :=
  trimEnd_append h []

theorem trimSlashes_of_isBare (h : IsBare part) : trimSlashes part = content part := by
  have hpart := (List.takeWhile_append_dropWhile (p := isSlash) (l := part)).symm
  have hslashes : ∀ c ∈ part.takeWhile isSlash, isSlash c = true := fun c => List.mem_takeWhile_imp
  rcases h with h | h
  · rw [h, List.append_nil] at hpart
    have hlast : part.getLast? ≠ some '\n' := by
      intro hnewline
      rw [hpart] at hnewline
      exact absurd (hslashes _ (List.mem_of_getLast? hnewline)) (by decide)
    have hnone : trimEnd isSlash part = [] := trimEnd_eq_nil (hpart ▸ hslashes)
    rw [content, h, trimSlashes_of_ne hlast, hnone]
    rfl
  · rw [h] at hpart
    rw [content, h, hpart, trimSlashes_concat_newline, trimEnd_eq_nil hslashes]
    decide

theorem trimSlashes_of_not_isBare (h : ¬ IsBare part) :
    trimSlashes part = part.takeWhile isSlash ++ content part := by
  rw [← trimSlashes_append_dropWhile h, List.takeWhile_append_dropWhile]

theorem takeWhile_isSlash_eq_nil_iff : part.takeWhile isSlash = [] ↔ part.head? ≠ some '/' := by
  cases part with
  | nil => simp
  | cons c part =>
    rw [List.takeWhile_cons, List.head?_cons, ne_eq, Option.some.injEq, ← isSlash_iff]
    split <;> simp_all

/-- The slashes that open the first part are kept, unless it is bare. -/
theorem trimSlashes_eq_iff : trimSlashes part = part.takeWhile isSlash ++ content part ↔
    (IsBare part → part.head? ≠ some '/') := by
  by_cases h : IsBare part
  · rw [trimSlashes_of_isBare h, List.self_eq_append_left, takeWhile_isSlash_eq_nil_iff]
    exact ⟨fun hhead _ => hhead, fun hhead => hhead h⟩
  · exact ⟨fun _ hbare => absurd hbare h, fun _ => trimSlashes_of_not_isBare h⟩

theorem length_trimSlashes_le (part : List Char) :
    (trimSlashes part).length ≤ (part.takeWhile isSlash ++ content part).length := by
  by_cases h : IsBare part
  · rw [trimSlashes_of_isBare h, List.length_append]
    omega
  · rw [trimSlashes_of_not_isBare h]

theorem trimEnd_append_closingSlashes (part : List Char) : trimEnd isSlash part ++ closingSlashes part = part := by
  rw [trimEnd, closingSlashes, ← List.reverse_append, List.takeWhile_append_dropWhile, List.reverse_reverse]

/-- The slashes that close the last part are kept, unless there is nothing else in it. -/
theorem dropWhile_eq_iff (hne : part ≠ []) : part.dropWhile isSlash = trim isSlash part ++ closingSlashes part ↔
    ∃ c ∈ part, isSlash c = false := by
  have hclosing := trimEnd_append_closingSlashes part
  have hhead := List.head?_dropWhile_not isSlash part
  cases hkept : part.dropWhile isSlash with
  | nil =>
    have hslashes := List.dropWhile_eq_nil_iff.mp hkept
    rw [trimEnd_eq_nil hslashes, List.nil_append] at hclosing
    rw [trim, hkept, hclosing]
    constructor
    · intro hpart
      exact absurd hpart.symm hne
    · rintro ⟨c, hc, hslash⟩
      rw [hslashes c hc] at hslash
      cases hslash
  | cons c rest =>
    rw [hkept] at hhead
    have hc : isSlash c = false := by simpa using hhead
    have hpart := List.takeWhile_append_dropWhile (p := isSlash) (l := part)
    rw [hkept] at hpart
    have hmem : c ∈ part := hpart ▸ List.mem_append_right _ List.mem_cons_self
    have halone := trimEnd_append_cons hc [] rest
    rw [List.nil_append, List.nil_append] at halone
    refine iff_of_true ?_ ⟨c, hmem, hc⟩
    rw [trim, hkept, halone]
    rw [← List.append_cancel_left_eq (part.takeWhile isSlash), ← List.append_assoc, ← trimEnd_append_cons hc, hpart, hclosing]

theorem length_dropWhile_le (part : List Char) :
    (part.dropWhile isSlash).length ≤ (trim isSlash part ++ closingSlashes part).length := by
  by_cases h : part ≠ [] ∧ ∃ c ∈ part, isSlash c = false
  · rw [(dropWhile_eq_iff h.1).mpr h.2]
  · have hslashes : part.dropWhile isSlash = [] := by
      rw [List.dropWhile_eq_nil_iff]
      intro c hc
      by_contra hslash
      exact h ⟨List.ne_nil_of_mem hc, c, hc, by simpa using hslash⟩
    rw [hslashes]
    exact Nat.zero_le _

/-! ## The whole URL -/

theorem laidOut_singleton (part : List Char) :
    laidOut [part] = part.takeWhile isSlash ++ (trim isSlash part ++ closingSlashes part) := by
  simp [laidOut, join]

theorem laidOut_cons (first : List Char) (inner : List (List Char)) (last : List Char) :
    laidOut (first :: (inner ++ [last])) = first.takeWhile isSlash ++ content first ++
      (inner.map content).flatMap ('/' :: ·) ++ '/' :: (trim isSlash last ++ closingSlashes last) := by
  have hwhole : first :: (inner ++ [last]) = first :: inner ++ [last] := rfl
  rw [laidOut, hwhole, List.getLast?_concat, List.dropLast_concat]
  show first.takeWhile isSlash ++ join ['/'] (content first :: (inner.map content ++ [trim isSlash last])) ++
    closingSlashes last = _
  rw [join_cons_flatMap, List.flatMap_append]
  simp [List.append_assoc]

/-- Between the contents of parts stands one slash, and the outer slashes are kept, but for ends without content. -/
theorem join_eq_laidOut_iff (h : ∀ part ∈ parts, part ≠ []) : join ['/'] (trimParts true parts) = laidOut parts ↔
    (∀ last ∈ parts.getLast?, ∃ c ∈ last, isSlash c = false) ∧
      (1 < parts.length → ∀ first ∈ parts.head?, IsBare first → first.head? ≠ some '/') := by
  cases parts with
  | nil => simp [trimParts, join, laidOut]
  | cons first rest =>
    rcases List.eq_nil_or_concat rest with rfl | ⟨inner, last, rfl⟩
    · have hcontent := dropWhile_eq_iff (h first List.mem_cons_self)
      rw [← List.append_cancel_left_eq (first.takeWhile isSlash), List.takeWhile_append_dropWhile] at hcontent
      rw [laidOut_singleton, trimParts, join, List.intercalate_singleton, if_pos rfl, hcontent]
      simp
    · rw [List.concat_eq_append] at h ⊢
      have hlast : last ≠ [] := h last (by simp)
      have hends : (∀ p ∈ (first :: (inner ++ [last])).getLast?, ∃ c ∈ p, isSlash c = false) ↔
          ∃ c ∈ last, isSlash c = false := by
        rw [← List.cons_append, List.getLast?_concat]
        simp
      rw [join_trimParts, laidOut_cons, opening, hends, ← dropWhile_eq_iff hlast]
      simp only [List.head?_cons, Option.mem_some_iff, forall_eq', ← trimSlashes_eq_iff]
      constructor
      · intro heq
        -- neither end is longer in the URL, so neither is shorter
        have hlength := congrArg List.length heq
        have hfirst := length_trimSlashes_le first
        have hclose := length_dropWhile_le last
        simp only [List.length_append, List.length_cons] at hlength hfirst hclose
        rw [List.append_assoc, List.append_assoc] at heq
        obtain ⟨hopening, hrest⟩ := List.append_inj heq (by simp only [List.length_append]; omega)
        exact ⟨(List.cons.inj (List.append_cancel_left hrest)).2, fun _ => hopening⟩
      · rintro ⟨hclosing, hopening⟩
        rw [hclosing, hopening (by simp)]

/-- Joining all parts that are there is joining them two at a time if and only if none is bare that stands between
others. Their contents are joined by one slash each, in the slashes that open the first and close the last, if and
only if those two are more than slashes. -/
theorem url_joined (parts : List (Option String)) :
    (joinUrl parts = joinedByTwos (present parts) ↔ ∀ part ∈ (present parts).tail.dropLast, ¬ IsBare part.toList) ∧
    ((joinUrl parts).toList = laidOut ((present parts).map String.toList) ↔
      (∀ last ∈ (present parts).getLast?, ∃ c ∈ last.toList, isSlash c = false) ∧
      (1 < (present parts).length → ∀ first ∈ (present parts).head?,
        IsBare first.toList → first.toList.head? ≠ some '/')) ∧
    ∀ part, ((content part).head? ≠ some '/' ∧ (content part).getLast? ≠ some '/') ∧
      (trim isSlash part).head? ≠ some '/' ∧ (trim isSlash part).getLast? ≠ some '/' := by
  have hpresent : ∀ part ∈ present parts, part ≠ "" := fun part => ne_of_mem_present
  refine ⟨?_, ?_, fun part => ⟨content_apart part, trim_apart part⟩⟩
  · rw [← String.toList_inj, toList_joinUrl]
    cases htexts : present parts with
    | nil => simp [trimParts, join, joinedByTwos]
    | cons first rest =>
      rw [htexts] at hpresent
      obtain ⟨hfirst, hrest⟩ := List.forall_mem_cons.mp hpresent
      rw [toList_joinedByTwos hfirst hrest]
      rcases List.eq_nil_or_concat rest with rfl | ⟨inner, last, rfl⟩
      · simp [trimParts, join]
      · rw [List.concat_eq_append, List.map_cons, List.map_append, List.map_singleton, join_trimParts,
          List.foldl_append, List.foldl_cons, List.foldl_nil, joinTwo, List.append_cancel_right_eq, eq_comm,
          trimSlashes_foldl_eq_iff, List.tail_cons, List.dropLast_concat]
        simp
  · rw [toList_joinUrl, join_eq_laidOut_iff]
    · simp
    · simpa using hpresent

/-- A slash alone between two parts gives two slashes, where joining two at a time gives one. -/
theorem exists_url_slashed_twice : joinUrl [some "a", some "/", some "b"] = "a//b" ∧
    joinedByTwos (present [some "a", some "/", some "b"]) = "a/b" := by
  decide +kernel

end ClientBindings.Wire
