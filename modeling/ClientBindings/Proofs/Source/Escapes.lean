import ClientBindings.Proofs.Pointer
import ClientBindings.Source.Remark

/-! Escapes of docstrings. Backslashes are escaped, quotes by three from the left on, and then a quote at the end.
That leaves at most two quotes in a row as they are, so the text is read back, unless its last three quotes are
escaped together: then what is escaped at the end is the backslash in front of the last quote. -/

namespace ClientBindings.Docstring

open Text Remark

variable {cs front rest : List Char}

/-! ## Literals in tripled quotes -/

/-- What an escape stands for, given the character behind the backslash: a line end for nothing, and what is no
escape for itself. Escapes that go on behind that character are not read. -/
def escaped? (c : Char) : Option (List Char) :=
  if "01234567xNuU".toList.contains c then none
  else some (([('\n', []), ('\\', ['\\']), ('\'', ['\'']), ('"', ['"']), ('a', ['\x07']), ('b', ['\x08']),
    ('t', ['\t']), ('n', ['\n']), ('v', ['\x0b']), ('f', ['\x0c']), ('r', ['\r'])].lookup c).getD ['\\', c])

/-- The text in front of the first three quotes in a row, and what follows them. -/
def body? : List Char → Option (List Char × List Char)
  | '"' :: '"' :: '"' :: cs => some ([], cs)
  | '\\' :: c :: cs =>
    match escaped? c, body? cs with
    | some new, some (text, rest) => some (new ++ text, rest)
    | _, _ => none
  | c :: cs => (body? cs).map fun found => (c :: found.1, found.2)
  | [] => none

/-- How many quotes a text ends with. -/
def closingQuotes (cs : List Char) : Nat := (cs.reverse.takeWhile (· == '"')).length

/-! ## What is escaped -/

/-- A text with its backslashes and its tripled quotes escaped. -/
def shielded : List Char → List Char
  | '"' :: '"' :: '"' :: cs => '\\' :: '"' :: '\\' :: '"' :: '\\' :: '"' :: shielded cs
  | '\\' :: cs => '\\' :: '\\' :: shielded cs
  | c :: cs => c :: shielded cs
  | [] => []

/-- A text with a quote at its end escaped. -/
def sealed (cs : List Char) : List Char := if cs.getLast? == some '"' then cs.dropLast ++ ['\\', '"'] else cs

theorem shielded_cons {c : Char} (hc : c ≠ '\\') (hquotes : c = '"' → ¬ ['"', '"'] <+: cs) :
    shielded (c :: cs) = c :: shielded cs := by
  rw [shielded]
  · rintro rest rfl rfl
    exact hquotes rfl (by simp)
  · exact hc

theorem shielded_plain {c : Char} (hc : c ≠ '\\') (hquote : c ≠ '"') (cs : List Char) :
    shielded (c :: cs) = c :: shielded cs :=
  shielded_cons hc fun h => absurd h hquote

def doubled (c : Char) : List Char := if c = '\\' then ['\\', '\\'] else [c]

theorem doubled_of_ne {c : Char} (hc : c ≠ '\\') (cs : List Char) :
    (c :: cs).flatMap doubled = c :: cs.flatMap doubled := by
  rw [List.flatMap_cons, doubled, if_neg hc]
  rfl

/-- A quote at the front of a text with doubled backslashes is one of the text. -/
theorem of_quote_prefix_doubled (h : '"' :: front <+: cs.flatMap doubled) :
    ∃ tail, cs = '"' :: tail ∧ front <+: tail.flatMap doubled := by
  cases cs with
  | nil => simp at h
  | cons c tail =>
    by_cases hc : c = '\\'
    · subst hc
      simp [doubled] at h
    · rw [doubled_of_ne hc, List.cons_prefix_cons] at h
      obtain ⟨rfl, h⟩ := h
      exact ⟨tail, rfl, h⟩

theorem replaceFrom_doubled (cs : List Char) :
    replaceFrom quotes "\\\"\\\"\\\"".toList 0 (cs.flatMap doubled) = shielded cs := by
  fun_induction shielded cs with
  | case1 cs ih =>
    rw [← ih]
    rfl
  | case2 cs ih =>
    rw [← ih]
    rfl
  | case3 c cs hquotes hc ih =>
    rw [doubled_of_ne hc, replaceFrom, if_neg, ih]
    rw [List.isPrefixOf_iff_prefix, quotes, List.cons_prefix_cons]
    rintro ⟨rfl, h⟩
    obtain ⟨tail, rfl, hsecond⟩ := of_quote_prefix_doubled h
    obtain ⟨rest, rfl, -⟩ := of_quote_prefix_doubled hsecond
    exact hquotes rest rfl rfl
  | case4 => rfl

theorem guard_eq (cs : List Char) : Remark.guard cs = sealed (shielded cs) := by
  have hdoubled : replace ['\\'] ['\\', '\\'] cs = cs.flatMap doubled := Pointer.replace_char '\\' ['\\', '\\'] cs
  have hshielded : replace quotes "\\\"\\\"\\\"".toList (cs.flatMap doubled) = shielded cs := replaceFrom_doubled cs
  rw [Remark.guard, hdoubled, hshielded]
  rfl

/-- Texts are escaped apart from each other unless the second one goes on with the quotes of the first. -/
theorem shielded_append (h : front.getLast? = some '"' → rest.head? ≠ some '"') :
    shielded (front ++ rest) = shielded front ++ shielded rest := by
  fun_induction shielded front with
  | case1 cs ih =>
    have hrest := ih fun hlast => h (List.mem_getLast?_cons (List.mem_getLast?_cons (List.mem_getLast?_cons hlast)))
    exact congrArg (['\\', '"', '\\', '"', '\\', '"'] ++ ·) hrest
  | case2 cs ih =>
    have hrest := ih fun hlast => h (List.mem_getLast?_cons hlast)
    exact congrArg (['\\', '\\'] ++ ·) hrest
  | case3 c cs hquotes hc ih =>
    have hrest := ih fun hlast => h (List.mem_getLast?_cons hlast)
    rw [List.cons_append, shielded_cons hc, hrest]
    · rfl
    rintro rfl hprefix
    match cs with
    | [] =>
      obtain ⟨tail, rfl⟩ := hprefix
      exact h rfl rfl
    | [d] =>
      rw [List.singleton_append, List.cons_prefix_cons] at hprefix
      obtain ⟨rfl, tail, rfl⟩ := hprefix
      exact h rfl rfl
    | d :: e :: cs =>
      simp only [List.cons_append, List.cons_prefix_cons] at hprefix
      obtain ⟨rfl, rfl, -⟩ := hprefix
      exact hquotes cs rfl rfl
  | case4 => rfl

/-! ## Read back -/

theorem body?_escape {c : Char} {new : List Char} (h : escaped? c = some new) (cs : List Char) :
    body? ('\\' :: c :: cs) = (body? cs).map fun found => (new ++ found.1, found.2) := by
  rw [body?, h]
  cases body? cs <;> rfl

theorem body?_escaped_quote (cs : List Char) :
    body? ('\\' :: '"' :: cs) = (body? cs).map fun found => ('"' :: found.1, found.2) := by
  have hquote : escaped? '"' = some ['"'] := by decide
  exact body?_escape hquote cs

theorem body?_escaped_backslash (cs : List Char) :
    body? ('\\' :: '\\' :: cs) = (body? cs).map fun found => ('\\' :: found.1, found.2) := by
  have hbackslash : escaped? '\\' = some ['\\'] := by decide
  exact body?_escape hbackslash cs

theorem body?_cons {c : Char} (hc : c ≠ '\\') (hquotes : c = '"' → ¬ ['"', '"'] <+: cs) :
    body? (c :: cs) = (body? cs).map fun found => (c :: found.1, found.2) := by
  rw [body?]
  · rintro rest rfl rfl
    exact hquotes rfl (by simp)
  · rintro d rest rfl
    exact absurd rfl hc

/-- A quote at the front of an escaped text is one of the text, and none of three. -/
theorem of_quote_prefix_shielded {found : List Char} (h : '"' :: found <+: shielded cs ++ rest) :
    cs = [] ∧ '"' :: found <+: rest ∨ ∃ tail, cs = '"' :: tail ∧ found <+: shielded tail ++ rest := by
  fun_cases shielded cs with
  | case1 cs => simp [shielded] at h
  | case2 cs => simp [shielded] at h
  | case3 c cs hquotes hc =>
    rw [shielded, List.cons_append, List.cons_prefix_cons] at h
    · exact .inr ⟨cs, by rw [h.1], h.2⟩
    · exact hquotes
    · exact hc
  | case4 => exact .inl ⟨rfl, h⟩

theorem body?_shielded (h : cs.getLast? = some '"' → rest.head? ≠ some '"') :
    body? (shielded cs ++ rest) = (body? rest).map fun found => (cs ++ found.1, found.2) := by
  fun_induction shielded cs with
  | case1 cs ih =>
    have hrest := ih fun hlast => h (List.mem_getLast?_cons (List.mem_getLast?_cons (List.mem_getLast?_cons hlast)))
    simp only [List.cons_append, body?_escaped_quote, hrest, Option.map_map]
    rfl
  | case2 cs ih =>
    have hrest := ih fun hlast => h (List.mem_getLast?_cons hlast)
    rw [List.cons_append, List.cons_append, body?_escaped_backslash, hrest, Option.map_map]
    rfl
  | case3 c cs hquotes hc ih =>
    have hrest := ih fun hlast => h (List.mem_getLast?_cons hlast)
    rw [List.cons_append, body?_cons hc, hrest, Option.map_map]
    · rfl
    -- Three quotes in a row would be quotes of the text, which are escaped, or go on behind it.
    rintro rfl hprefix
    rcases of_quote_prefix_shielded hprefix with ⟨rfl, tail, rfl⟩ | ⟨tail, rfl, hsecond⟩
    · exact h rfl rfl
    rcases of_quote_prefix_shielded hsecond with ⟨rfl, tail, rfl⟩ | ⟨tail, rfl, -⟩
    · exact h rfl rfl
    · exact hquotes tail rfl rfl
  | case4 => exact Option.map_id'.symm

/-! ## Quotes at the end -/

/-- Quotes in a row are escaped by three from the left on. -/
theorem shielded_replicate (threes : Nat) {ones : Nat} (h : ones < 3) :
    shielded (List.replicate (3 * threes + ones) '"') =
      (List.replicate threes ['\\', '"', '\\', '"', '\\', '"']).flatten ++ List.replicate ones '"' := by
  induction threes with
  | zero =>
    rw [Nat.mul_zero, Nat.zero_add]
    match ones, h with
    | 0, _ => rfl
    | 1, _ => rfl
    | 2, _ => rfl
  | succ threes ih =>
    have hmore : 3 * (threes + 1) + ones = 3 * threes + ones + 3 := by omega
    rw [hmore, List.replicate_succ, List.replicate_succ, List.replicate_succ, shielded, ih, List.replicate_succ,
      List.flatten_cons]
    rfl

theorem shielded_append_replicate (hfront : front.getLast? ≠ some '"') (threes : Nat) {ones : Nat} (h : ones < 3) :
    shielded (front ++ List.replicate (3 * threes + ones) '"') = shielded front ++
      ((List.replicate threes ['\\', '"', '\\', '"', '\\', '"']).flatten ++ List.replicate ones '"') := by
  rw [shielded_append fun hlast => absurd hlast hfront, shielded_replicate threes h]

theorem exists_closingQuotes (cs : List Char) :
    ∃ front, cs = front ++ List.replicate (closingQuotes cs) '"' ∧ front.getLast? ≠ some '"' := by
  have htail : cs.reverse.takeWhile (· == '"') = List.replicate (closingQuotes cs) '"' := by
    apply List.eq_replicate_of_mem
    intro c hc
    simpa using List.mem_takeWhile_imp hc
  refine ⟨(cs.reverse.dropWhile (· == '"')).reverse, ?_, ?_⟩
  · rw [← List.reverse_replicate, ← htail, ← List.reverse_append, List.takeWhile_append_dropWhile, List.reverse_reverse]
  · rw [List.getLast?_reverse]
    intro hhead
    have hnot := List.head?_dropWhile_not (· == '"') cs.reverse
    simp [hhead] at hnot

theorem sealed_concat (cs : List Char) : sealed (cs ++ ['"']) = cs ++ ['\\', '"'] := by
  simp [sealed]

theorem sealed_of_getLast? (h : cs.getLast? ≠ some '"') : sealed cs = cs := if_neg (by simpa using h)

theorem getLast?_sealed (cs : List Char) : (sealed cs).getLast? = cs.getLast? := by
  by_cases h : cs.getLast? = some '"'
  · obtain ⟨front, rfl⟩ := List.getLast?_eq_some_iff.mp h
    rw [sealed_concat, List.getLast?_concat, List.getLast?_append_cons]
    rfl
  · rw [sealed_of_getLast? h]

/-- A quote at the end that is not escaped with two others is escaped alone. -/
theorem exists_sealed (h : ¬ 3 ∣ closingQuotes cs) :
    ∃ front, cs = front ++ ['"'] ∧ sealed (shielded cs) = shielded front ++ ['\\', '"'] := by
  obtain ⟨front, hcs, hfront⟩ := exists_closingQuotes cs
  generalize closingQuotes cs = n at h hcs
  obtain ⟨threes, ones, hn, hones⟩ : ∃ threes ones, n = 3 * threes + ones + 1 ∧ ones + 1 < 3 :=
    ⟨n / 3, n % 3 - 1, by omega, by omega⟩
  refine ⟨front ++ List.replicate (3 * threes + ones) '"', ?_, ?_⟩
  · rw [hcs, hn, List.replicate_succ', List.append_assoc]
  · rw [hcs, hn, Nat.add_assoc, shielded_append_replicate hfront threes hones,
      shielded_append_replicate hfront threes (Nat.lt_of_succ_lt hones), List.replicate_succ', ← List.append_assoc,
      ← List.append_assoc, sealed_concat]
    simp only [List.append_assoc]

/-- If the last three quotes are escaped together, the escape of the last one is escaped itself. -/
theorem exists_torn (hthree : 3 ∣ closingQuotes cs) (hsome : closingQuotes cs ≠ 0) : ∃ front, cs = front ++ quotes ∧
    sealed (shielded cs) = shielded front ++ ['\\', '"', '\\', '"', '\\', '\\', '"'] := by
  obtain ⟨front, hcs, hfront⟩ := exists_closingQuotes cs
  generalize closingQuotes cs = n at hthree hsome hcs
  obtain ⟨threes, hn⟩ : ∃ threes, n = 3 * threes + 0 + 3 := ⟨n / 3 - 1, by omega⟩
  have hmore : 3 * threes + 0 + 3 = 3 * (threes + 1) + 0 := by omega
  refine ⟨front ++ List.replicate (3 * threes + 0) '"', ?_, ?_⟩
  · rw [hcs, hn, List.replicate_add, List.append_assoc]
    rfl
  · have hlast : ['\\', '"', '\\', '"', '\\', '"'] = ['\\', '"', '\\', '"', '\\'] ++ ['"'] := rfl
    rw [hcs, hn, hmore, shielded_append_replicate hfront (threes + 1) (by decide),
      shielded_append_replicate hfront threes (by decide), List.replicate_succ', List.flatten_concat, List.replicate_zero,
      List.append_nil, List.append_nil, hlast, ← List.append_assoc, ← List.append_assoc, sealed_concat]
    simp only [List.append_assoc]
    rfl

theorem getLast?_ne_of_closingQuotes (h : closingQuotes cs = 0) : cs.getLast? ≠ some '"' := by
  obtain ⟨front, hcs, hfront⟩ := exists_closingQuotes cs
  rw [h, List.replicate_zero, List.append_nil] at hcs
  rwa [hcs]

theorem getLast?_shielded (cs : List Char) : (shielded cs).getLast? = cs.getLast? := by
  fun_induction shielded cs with
  | case1 cs ih => simp [List.getLast?_cons, ih]
  | case2 cs ih => simp [List.getLast?_cons, ih]
  | case3 c cs hquotes hc ih => rw [List.getLast?_cons, List.getLast?_cons, ih]
  | case4 => rfl

/-- A text is read back from its escapes, unless its last three quotes are escaped together. -/
theorem body?_sealed (h : 3 ∣ closingQuotes cs → closingQuotes cs = 0) (rest : List Char) :
    body? (sealed (shielded cs) ++ rest) = (body? rest).map fun found => (cs ++ found.1, found.2) := by
  by_cases hnone : closingQuotes cs = 0
  · have hlast := getLast?_ne_of_closingQuotes hnone
    rw [sealed_of_getLast? (by rwa [getLast?_shielded]), body?_shielded fun h => absurd h hlast]
  · obtain ⟨front, hcs, hsealed⟩ := exists_sealed (mt h hnone)
    rw [hsealed, List.append_assoc, body?_shielded fun _ => by simp]
    show (body? ('\\' :: '"' :: rest)).map _ = _
    rw [body?_escaped_quote, Option.map_map, hcs]
    simp only [List.append_assoc]
    rfl

theorem body?_torn (hthree : 3 ∣ closingQuotes cs) (hsome : closingQuotes cs ≠ 0) (rest : List Char) :
    ∃ front, cs = front ++ quotes ∧ body? (sealed (shielded cs) ++ rest) =
      (body? ('"' :: rest)).map fun found => (front ++ '"' :: '"' :: '\\' :: found.1, found.2) := by
  obtain ⟨front, hcs, hsealed⟩ := exists_torn hthree hsome
  refine ⟨front, hcs, ?_⟩
  rw [hsealed, List.append_assoc, body?_shielded fun _ => by simp]
  show (body? ('\\' :: '"' :: '\\' :: '"' :: '\\' :: '\\' :: '"' :: rest)).map _ = _
  rw [body?_escaped_quote, body?_escaped_quote, body?_escaped_backslash, Option.map_map, Option.map_map, Option.map_map]
  rfl

end ClientBindings.Docstring
