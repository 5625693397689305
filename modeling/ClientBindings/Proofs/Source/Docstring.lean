import ClientBindings.Proofs.Source.Escapes
import ClientBindings.Proofs.Source.LineEnds

/-! Docstrings read back. A docstring is one literal in tripled quotes, and what it denotes are the lines of the
text, each but the first indented. Escapes neither cross lines nor hide white space at their ends. -/

namespace ClientBindings.Docstring

open Text Remark

variable {cs : List Char}

/-- The text that a literal in tripled quotes denotes, if there is nothing else. All line ends are read alike,
and no source text holds a null character. -/
def literal? (token : List Char) : Option (List Char) :=
  match FileTree.unifyLineEnds token with
  | '"' :: '"' :: '"' :: cs =>
    if cs.contains '\x00' then none else (body? cs).bind fun found => if found.2.isEmpty then some found.1 else none
  | _ => none

/-- Lines as a docstring has them, each but the first indented; if there are several, the closing quotes get a
line of their own. -/
def laid (indent : Nat) : List (List Char) → List Char
  | [] => []
  | [line] => line
  | line :: rest => join ['\n'] (line :: rest.map (indentLine indent)) ++ '\n' :: spaces indent

/-- What a docstring says: the lines of the text without white space at their ends. -/
def said (indent : Nat) (cs : List Char) : List Char :=
  laid indent ((splitOn '\n' (strip cs)).map (trimEnd Unicode.isBlank))

/-! ## Escapes line by line -/

theorem plain_of_isBlank {c : Char} (h : Unicode.isBlank c = true) : c ≠ '\\' ∧ c ≠ '"' := by
  constructor
  · rintro rfl
    exact absurd h (by decide)
  · rintro rfl
    exact absurd h (by decide)

theorem isBlank_of_mem_spaces {indent : Nat} : ∀ c ∈ spaces indent, Unicode.isBlank c = true := by
  intro c hc
  rw [List.eq_of_mem_replicate hc]
  decide

theorem shielded_of_blank (h : ∀ c ∈ cs, Unicode.isBlank c = true) : shielded cs = cs := by
  induction cs with
  | nil => rfl
  | cons c cs ih =>
    obtain ⟨hc, hcs⟩ := List.forall_mem_cons.mp h
    rw [shielded_plain (plain_of_isBlank hc).1 (plain_of_isBlank hc).2, ih hcs]

theorem getLast?_of_blank (h : ∀ c ∈ cs, Unicode.isBlank c = true) : cs.getLast? ≠ some '"' :=
  fun hlast => (plain_of_isBlank (h _ (List.mem_of_getLast? hlast))).2 rfl

theorem trimEnd_shielded (cs : List Char) :
    trimEnd Unicode.isBlank (shielded cs) = shielded (trimEnd Unicode.isBlank cs) := by
  obtain ⟨blanks, hcs, hblanks, hlast⟩ := exists_trimEnd Unicode.isBlank cs
  conv_lhs => rw [hcs]
  rw [shielded_append, shielded_of_blank hblanks, trimEnd_append hblanks, trimEnd_eq_self]
  · rwa [getLast?_shielded]
  · rintro - hhead
    exact (plain_of_isBlank (hblanks '"' (List.mem_of_head? hhead))).2 rfl

theorem shielded_spaces_append (indent : Nat) (line : List Char) :
    shielded (spaces indent ++ line) = spaces indent ++ shielded line := by
  rw [shielded_append fun hlast => absurd hlast (getLast?_of_blank isBlank_of_mem_spaces),
    shielded_of_blank isBlank_of_mem_spaces]

theorem shielded_eq_nil_iff : shielded cs = [] ↔ cs = [] := by
  rw [← List.getLast?_eq_none_iff, getLast?_shielded, List.getLast?_eq_none_iff]

theorem shielded_indentLine (indent : Nat) (line : List Char) :
    shielded (indentLine indent line) = indentLine indent (shielded line) := by
  unfold indentLine
  by_cases hline : line = []
  · rw [hline]
    rfl
  · rw [if_neg (by simpa using hline), if_neg (by simpa [shielded_eq_nil_iff] using hline), shielded_spaces_append]

theorem shielded_newline_append (front rest : List Char) :
    shielded (front ++ '\n' :: rest) = shielded front ++ '\n' :: shielded rest := by
  rw [shielded_append fun _ => by simp, shielded_plain (by decide) (by decide)]

theorem shielded_join (lines : List (List Char)) :
    shielded (join ['\n'] lines) = join ['\n'] (lines.map shielded) := by
  induction lines with
  | nil => rfl
  | cons line lines ih =>
    cases lines with
    | nil => rw [List.map_singleton, join, join, List.intercalate_singleton, List.intercalate_singleton]
    | cons next lines =>
      rw [join_cons_cons, List.append_assoc, List.singleton_append, shielded_newline_append, ih]
      simp only [List.map_cons, join_cons_cons, List.append_assoc, List.singleton_append]

theorem mem_of_mem_shielded {c : Char} (h : c ∈ shielded cs) : c = '\\' ∨ c ∈ cs := by
  fun_induction shielded cs with
  | case1 cs ih => simp only [List.mem_cons] at h ⊢; tauto
  | case2 cs ih => simp only [List.mem_cons] at h ⊢; tauto
  | case3 c cs hquotes hc ih => simp only [List.mem_cons] at h ⊢; tauto
  | case4 => exact absurd h List.not_mem_nil

theorem splitOn_shielded (cs : List Char) : splitOn '\n' (shielded cs) = (splitOn '\n' cs).map shielded := by
  conv_lhs => rw [← join_splitOn '\n' cs, shielded_join]
  apply splitOn_join
  · simp
  · intro piece hpiece hmem
    obtain ⟨line, hline, rfl⟩ := List.mem_map.mp hpiece
    rcases mem_of_mem_shielded hmem with h | h
    · exact absurd h (by decide)
    · exact not_mem_of_mem_splitOn hline h

theorem sealed_append {c : Char} (hc : c ≠ '"') (front rest : List Char) :
    sealed (front ++ c :: rest) = front ++ c :: sealed rest := by
  rcases List.eq_nil_or_concat' rest with rfl | ⟨init, d, rfl⟩
  · exact sealed_of_getLast? (by simpa using hc)
  have happend : front ++ c :: (init ++ [d]) = (front ++ c :: init) ++ [d] := by simp
  by_cases hd : d = '"'
  · rw [happend, hd, sealed_concat, sealed_concat, List.append_assoc, List.cons_append]
  · have hrest : sealed (init ++ [d]) = init ++ [d] := sealed_of_getLast? (by simpa using hd)
    rw [hrest, happend, sealed_of_getLast? (by rwa [List.getLast?_concat, Ne, Option.some_inj])]

theorem mem_of_mem_sealed {c : Char} (h : c ∈ sealed cs) : c = '\\' ∨ c = '"' ∨ c ∈ cs := by
  rw [sealed] at h
  split at h
  · rcases List.mem_append.mp h with h | h
    · exact .inr (.inr (List.dropLast_subset cs h))
    · rcases List.mem_cons.mp h with h | h
      · exact .inl h
      · exact .inr (.inl (List.mem_singleton.mp h))
  · exact .inr (.inr h)

theorem splitOn_sealed {front : List (List Char)} {last : List Char} (h : splitOn '\n' cs = front ++ [last]) :
    splitOn '\n' (sealed cs) = front ++ [sealed last] := by
  have hmarks : ∀ line ∈ front ++ [last], '\n' ∉ line := fun line hline => not_mem_of_mem_splitOn (h ▸ hline)
  have hlast : splitOn '\n' (sealed last) = [sealed last] := by
    apply splitOn_of_not_mem
    intro hmem
    rcases mem_of_mem_sealed hmem with hc | hc | hc
    · exact absurd hc (by decide)
    · exact absurd hc (by decide)
    · exact hmarks last (List.mem_append_right front List.mem_cons_self) hc
  rw [← join_splitOn '\n' cs, h]
  by_cases hfront : front = []
  · rw [hfront, List.nil_append, List.nil_append, join, List.intercalate_singleton, hlast]
  · rw [join_concat hfront, List.append_assoc, List.singleton_append, sealed_append (by decide), splitOn_append_cons, hlast,
      splitOn_join hfront fun line hline => hmarks line (List.mem_append_left _ hline)]

/-! ## What is printed -/

theorem isBlank_of_mem_newline_spaces {indent : Nat} : ∀ c ∈ '\n' :: spaces indent, Unicode.isBlank c = true :=
  List.forall_mem_cons.mpr ⟨by decide, isBlank_of_mem_spaces⟩

theorem laid_concat (indent : Nat) (line : List Char) (front : List (List Char)) {last : List Char} (h : last ≠ []) :
    laid indent (line :: (front ++ [last])) = join ['\n'] (line :: front.map (indentLine indent)) ++ '\n' :: spaces indent ++
      (last ++ '\n' :: spaces indent) := by
  have hlaid : laid indent (line :: (front ++ [last])) =
      join ['\n'] (line :: (front ++ [last]).map (indentLine indent)) ++ '\n' :: spaces indent := by
    rw [laid]
    simp
  have hlast : indentLine indent last = spaces indent ++ last := if_neg (by simpa using h)
  rw [hlaid, List.map_append, List.map_singleton, hlast, ← List.cons_append, join_concat (List.cons_ne_nil _ _)]
  simp only [List.append_assoc, List.cons_append, List.nil_append]

/-- What is written around the last line does not depend on it, and is escaped apart from it. -/
theorem exists_laid (indent : Nat) (front : List (List Char)) : ∃ before after, before.getLast? ≠ some '"' ∧
    (after = [] ∨ after = '\n' :: spaces indent) ∧ ∀ last ≠ [],
      laid indent (front ++ [last]) = before ++ (last ++ after) ∧
      laid indent (front.map shielded ++ [last]) = shielded before ++ (last ++ after) := by
  cases front with
  | nil =>
    refine ⟨[], [], by simp, .inl rfl, ?_⟩
    intro last _
    exact ⟨(List.append_nil last).symm, (List.append_nil last).symm⟩
  | cons line front =>
    refine ⟨join ['\n'] (line :: front.map (indentLine indent)) ++ '\n' :: spaces indent, '\n' :: spaces indent,
      ?_, .inr rfl, ?_⟩
    · rw [List.getLast?_append_cons]
      exact getLast?_of_blank isBlank_of_mem_newline_spaces
    intro last hlast
    refine ⟨laid_concat indent line front hlast, ?_⟩
    rw [List.map_cons, List.cons_append, laid_concat indent (shielded line) _ hlast, shielded_newline_append, shielded_join,
      shielded_of_blank isBlank_of_mem_spaces, List.map_cons, List.map_map, List.map_map]
    simp only [Function.comp_def, shielded_indentLine]

theorem closingQuotes_append {c : Char} (hc : c ≠ '"') (front last : List Char) :
    closingQuotes (front ++ c :: last) = closingQuotes last := by
  have hstop : (c :: front.reverse).takeWhile (· == '"') = [] := List.takeWhile_cons_of_neg (by simpa using hc)
  rw [closingQuotes, closingQuotes, List.reverse_append, List.reverse_cons, List.append_assoc, List.singleton_append,
    List.takeWhile_append, hstop, List.append_nil]
  split
  case isTrue hall => exact hall.symm
  case isFalse => rfl

/-- A text without white space at its ends has a last line, and that ends like the text. -/
theorem exists_last (hstrip : strip cs ≠ []) : ∃ front last, splitOn '\n' (strip cs) = front ++ [last] ∧ last ≠ [] ∧
    (∀ c ∈ last.getLast?, Unicode.isBlank c = false) ∧ closingQuotes last = closingQuotes (strip cs) := by
  have hend : ∀ c ∈ (strip cs).getLast?, Unicode.isBlank c = false := by
    obtain ⟨_, _, _, hlast⟩ := exists_trimEnd Unicode.isBlank (cs.dropWhile Unicode.isBlank)
    exact hlast
  generalize strip cs = text at hstrip hend
  rcases List.eq_nil_or_concat' (splitOn '\n' text) with h | ⟨front, last, h⟩
  · exact absurd h (splitOn_ne_nil '\n' text)
  refine ⟨front, last, h, ?_⟩
  have htext := join_splitOn '\n' text
  rw [h] at htext
  by_cases hfront : front = []
  · rw [hfront, List.nil_append, join, List.intercalate_singleton] at htext
    rw [htext]
    exact ⟨hstrip, hend, rfl⟩
  · rw [join_concat hfront, List.append_assoc, List.singleton_append] at htext
    rw [← htext, List.getLast?_append_cons] at hend
    have hlast : last ≠ [] := by
      rintro rfl
      exact absurd (hend '\n' rfl) (by decide)
    refine ⟨hlast, ?_, ?_⟩
    · intro c hc
      exact hend c (List.mem_getLast?_cons hc)
    · rw [← htext, closingQuotes_append (by decide)]

theorem docstringChars_eq (indent : Nat) (hstrip : strip cs ≠ []) : docstringChars indent cs = spaces indent ++
    (quotes ++ (laid indent ((splitOn '\n' (guard (strip cs))).map (trimEnd Unicode.isBlank)) ++ quotes)) := by
  rw [docstringChars, if_neg (by simpa using hstrip)]
  split
  case h_1 hnone => exact absurd (List.map_eq_nil_iff.mp hnone) (splitOn_ne_nil _ _)
  case h_2 line hline =>
    rw [hline, laid]
    simp only [List.append_assoc]
  case h_3 line rest hrest hlines =>
    obtain ⟨next, rest, rfl⟩ := List.exists_cons_of_ne_nil hrest
    rw [hlines, laid, List.map_cons, join_cons_cons]
    · simp only [List.append_assoc, List.cons_append, List.nil_append]
    · exact hrest

/-- A docstring is what it says, escaped, the last line apart from what is in front of it. -/
theorem exists_parts (indent : Nat) (hstrip : strip cs ≠ []) : ∃ before last after,
    docstringChars indent cs =
      spaces indent ++ (quotes ++ (shielded before ++ (sealed (shielded last) ++ (after ++ quotes)))) ∧
    said indent cs = before ++ (last ++ after) ∧ before.getLast? ≠ some '"' ∧
    (after = [] ∨ after = '\n' :: spaces indent) ∧ closingQuotes last = closingQuotes (strip cs) := by
  obtain ⟨front, last, hlines, hlast, hend, hclosing⟩ := exists_last hstrip
  obtain ⟨before, after, hbefore, hafter, hlaid⟩ := exists_laid indent (front.map (trimEnd Unicode.isBlank))
  refine ⟨before, last, after, ?_, ?_, hbefore, hafter, hclosing⟩
  · have hshielded : splitOn '\n' (shielded (strip cs)) = front.map shielded ++ [shielded last] := by
      rw [splitOn_shielded, hlines, List.map_append, List.map_singleton]
    have hsealed : sealed (shielded last) ≠ [] := by
      rwa [Ne, ← List.getLast?_eq_none_iff, getLast?_sealed, getLast?_shielded, List.getLast?_eq_none_iff]
    have htrim : trimEnd Unicode.isBlank (sealed (shielded last)) = sealed (shielded last) :=
      trimEnd_eq_self (by rwa [getLast?_sealed, getLast?_shielded])
    have hfront : (front.map shielded).map (trimEnd Unicode.isBlank) =
        (front.map (trimEnd Unicode.isBlank)).map shielded := by
      rw [List.map_map, List.map_map]
      exact List.map_congr_left fun line _ => trimEnd_shielded line
    rw [docstringChars_eq indent hstrip, guard_eq, splitOn_sealed hshielded, List.map_append, List.map_singleton, htrim,
      hfront, (hlaid _ hsealed).2]
    simp only [List.append_assoc]
  · rw [said, hlines, List.map_append, List.map_singleton, trimEnd_eq_self hend, (hlaid last hlast).1]

/-! ## Read back -/

theorem literal?_quotes (hreturn : '\r' ∉ cs) (hnull : '\x00' ∉ cs) :
    literal? (quotes ++ cs) = (body? cs).bind fun found => if found.2.isEmpty then some found.1 else none := by
  have hunified : FileTree.unifyLineEnds (quotes ++ cs) = quotes ++ cs :=
    congrArg (quotes ++ ·) (FileTree.unifyLineEnds_eq_self hreturn)
  have hcontains : ¬ cs.contains '\x00' = true := by simpa using hnull
  rw [literal?, hunified]
  exact if_neg hcontains

theorem body?_after (indent : Nat) {after : List Char} (h : after = [] ∨ after = '\n' :: spaces indent) :
    body? (after ++ quotes) = some (after, []) := by
  have hblank : ∀ c ∈ after, Unicode.isBlank c = true := by
    rcases h with rfl | rfl
    · exact List.forall_mem_nil _
    · exact isBlank_of_mem_newline_spaces
  have hread : body? (shielded after ++ quotes) = (body? quotes).map fun found => (after ++ found.1, found.2) :=
    body?_shielded fun hlast => absurd hlast (getLast?_of_blank hblank)
  rw [shielded_of_blank hblank] at hread
  rw [hread]
  exact congrArg (fun text => some (text, [])) (List.append_nil after)

theorem mem_strip {c : Char} (h : c ∈ strip cs) : c ∈ cs :=
  (List.dropWhile_sublist Unicode.isBlank).subset (mem_of_mem_trimEnd h)

theorem mem_of_mem_indentLine {indent : Nat} {line : List Char} {c : Char} (h : c ∈ indentLine indent line) :
    c = ' ' ∨ c ∈ line := by
  rw [indentLine] at h
  split at h
  · exact .inr h
  · exact (List.mem_append.mp h).imp_left List.eq_of_mem_replicate

theorem mem_of_mem_laid {indent : Nat} {lines : List (List Char)} {c : Char} (h : c ∈ laid indent lines) :
    c = '\n' ∨ c = ' ' ∨ ∃ line ∈ lines, c ∈ line := by
  unfold laid at h
  split at h
  case h_1 => exact absurd h List.not_mem_nil
  case h_2 line => exact .inr (.inr ⟨line, List.mem_cons_self, h⟩)
  case h_3 line rest _ =>
    rcases List.mem_append.mp h with h | h
    · rcases mem_join_iff.mp h with ⟨hmark, -⟩ | ⟨piece, hpiece, hc⟩
      · exact .inl hmark
      rcases List.mem_cons.mp hpiece with rfl | hpiece
      · exact .inr (.inr ⟨piece, List.mem_cons_self, hc⟩)
      · obtain ⟨raw, hraw, rfl⟩ := List.mem_map.mp hpiece
        exact .inr ((mem_of_mem_indentLine hc).imp_right fun hc => ⟨raw, List.mem_cons_of_mem _ hraw, hc⟩)
    · exact (List.mem_cons.mp h).imp_right fun h => .inl (List.eq_of_mem_replicate h)

/-- A docstring says nothing but its text, line ends and blanks. -/
theorem mem_of_mem_said {indent : Nat} {c : Char} (h : c ∈ said indent cs) : c = '\n' ∨ c = ' ' ∨ c ∈ cs := by
  refine (mem_of_mem_laid h).imp_right (Or.imp_right ?_)
  rintro ⟨line, hline, hc⟩
  obtain ⟨raw, hraw, rfl⟩ := List.mem_map.mp hline
  apply mem_strip
  rw [← join_splitOn '\n' (strip cs), mem_join_iff]
  exact .inr ⟨raw, hraw, mem_of_mem_trimEnd hc⟩

/-- A docstring has no characters but those of what it says, quotes and backslashes. -/
theorem not_mem_parts {c : Char} {before last after : List Char} (h : c ∉ before ++ (last ++ after)) (hquote : c ≠ '"')
    (hbackslash : c ≠ '\\') : c ∉ shielded before ++ (sealed (shielded last) ++ (after ++ quotes)) := by
  simp only [List.mem_append, not_or] at h ⊢
  refine ⟨fun hmem => ?_, fun hmem => ?_, h.2.2, fun hmem => ?_⟩
  · exact (mem_of_mem_shielded hmem).elim hbackslash h.1
  · rcases mem_of_mem_sealed hmem with hc | hc | hmem
    · exact hbackslash hc
    · exact hquote hc
    · exact (mem_of_mem_shielded hmem).elim hbackslash h.2.1
  · exact hquote (by simpa [quotes] using hmem)

theorem truthy_str {text : String} (h : text ≠ "") : (Data.str text).truthy = true := by
  simpa [Data.truthy, Scalar.truthy] using h

theorem docstring_of_ne {text : String} (h : text ≠ "") (indent : Nat) :
    Remark.docstring (.str text) indent = .ok (String.ofList (docstringChars indent text.toList)) := by
  rw [Remark.docstring, truthy_str h]
  rfl

theorem docstring_eq {text : String} (indent : Nat) (hblank : strip text.toList ≠ []) :
    Remark.docstring (.str text) indent = .ok (String.ofList (docstringChars indent text.toList)) := by
  refine docstring_of_ne ?_ indent
  rintro rfl
  exact hblank rfl

/-- A last quote that is left over is read with the text behind it, if that does not begin with quotes. -/
theorem body?_leftOver (indent : Nat) {after : List Char} (h : after = [] ∨ after = '\n' :: spaces indent) :
    body? ('"' :: (after ++ quotes)) = some (if after = [] then ([], ['"']) else ('"' :: after, [])) := by
  have hread := body?_after indent h
  rcases h with rfl | rfl
  · rfl
  · rw [body?_cons (by decide) fun _ => by simp, hread]
    rfl

/-- A docstring denotes what it says, unless its text ends with quotes by threes. -/
theorem docstring_denotes_iff (text : String) (indent : Nat) (hblank : strip text.toList ≠ [])
    (hreturn : '\r' ∉ text.toList) (hnull : '\x00' ∉ text.toList) : ∃ token,
    Remark.docstring (.str text) indent = .ok (String.ofList (spaces indent ++ token)) ∧
    (literal? token = some (said indent text.toList) ↔
      (3 ∣ closingQuotes (strip text.toList) → closingQuotes (strip text.toList) = 0)) := by
  obtain ⟨before, last, after, hprinted, hsaid, hbefore, hafter, hclosing⟩ := exists_parts indent hblank
  have habsent : ∀ c, c ≠ '\n' → c ≠ ' ' → c ∉ text.toList → c ∉ before ++ (last ++ after) := by
    intro c hline hspace hc hmem
    rcases mem_of_mem_said (hsaid ▸ hmem) with h | h | h
    · exact hline h
    · exact hspace h
    · exact hc h
  have hliteral := literal?_quotes
    (not_mem_parts (habsent '\r' (by decide) (by decide) hreturn) (by decide) (by decide))
    (not_mem_parts (habsent '\x00' (by decide) (by decide) hnull) (by decide) (by decide))
  refine ⟨_, (docstring_eq indent hblank).trans (congrArg (fun cs => Except.ok (String.ofList cs)) hprinted), ?_⟩
  rw [← hclosing, hsaid, hliteral, body?_shielded fun hlast => absurd hlast hbefore]
  constructor
  · intro hdenotes hthree
    by_contra hsome
    -- Without a line of its own the closing quotes are one too many; else there is a backslash too many.
    obtain ⟨front, rfl, htorn⟩ := body?_torn hthree hsome (after ++ quotes)
    rw [htorn, body?_leftOver indent hafter] at hdenotes
    by_cases hnone : after = []
    · simp [hnone] at hdenotes
    · have hlength := congrArg (Option.map List.length) hdenotes
      simp [hnone, quotes] at hlength
  · intro hwhole
    rw [body?_sealed hwhole, body?_after indent hafter]
    rfl

theorem docstring_denotes_quoted :
    (strip " say \"\"\" or\n\\\"\"\\ \t\n\n  it's \"\"\"\"\n".toList ≠ [] ∧
      '\r' ∉ " say \"\"\" or\n\\\"\"\\ \t\n\n  it's \"\"\"\"\n".toList ∧
      '\x00' ∉ " say \"\"\" or\n\\\"\"\\ \t\n\n  it's \"\"\"\"\n".toList) ∧ ∃ token,
    Remark.docstring (.str " say \"\"\" or\n\\\"\"\\ \t\n\n  it's \"\"\"\"\n") 4 =
      .ok (String.ofList (spaces 4 ++ token)) ∧
    literal? token = some "say \"\"\" or\n    \\\"\"\\\n\n      it's \"\"\"\"\n    ".toList := by
  have hplain : strip " say \"\"\" or\n\\\"\"\\ \t\n\n  it's \"\"\"\"\n".toList ≠ [] ∧
      '\r' ∉ " say \"\"\" or\n\\\"\"\\ \t\n\n  it's \"\"\"\"\n".toList ∧
      '\x00' ∉ " say \"\"\" or\n\\\"\"\\ \t\n\n  it's \"\"\"\"\n".toList := by
    decide +kernel
  obtain ⟨token, hprinted, hdenotes⟩ := docstring_denotes_iff _ 4 hplain.1 hplain.2.1 hplain.2.2
  exact ⟨hplain, token, hprinted, hdenotes.mpr (by decide +kernel)⟩

/-- Three quotes at the end of a text close its docstring early, or leave a backslash in it. -/
theorem exists_docstring_torn :
    (∃ token, Remark.docstring (.str "say \"\"\"") 4 = .ok (String.ofList (spaces 4 ++ token)) ∧ literal? token = none) ∧
    ∃ token, Remark.docstring (.str "a\n\"\"\"") 4 = .ok (String.ofList (spaces 4 ++ token)) ∧
      literal? token = some "a\n    \"\"\\\"\n    ".toList ∧
      said 4 "a\n\"\"\"".toList = "a\n    \"\"\"\n    ".toList :=
  ⟨⟨"\"\"\"say \\\"\\\"\\\\\"\"\"\"".toList,
      (docstring_eq 4 (by decide +kernel)).trans (congrArg Except.ok (by decide +kernel)), by decide +kernel⟩,
    "\"\"\"a\n    \\\"\\\"\\\\\"\n    \"\"\"".toList,
      (docstring_eq 4 (by decide +kernel)).trans (congrArg Except.ok (by decide +kernel)), by decide +kernel,
      by decide +kernel⟩

end ClientBindings.Docstring
