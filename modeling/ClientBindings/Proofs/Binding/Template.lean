import ClientBindings.Proofs.Binding.LateBinding
import ClientBindings.Proofs.Text
import Mathlib.Data.List.TakeDrop
import Mathlib.Data.List.TakeWhile

/-! What a path becomes as a template. Each placeholder is kept with the literal text behind it, up to the next
opening brace. Text that cannot be read as one more placeholder after that is moved in front of the first one:
a line end that closes the path, or an opening brace that no name and closing brace follow. Apart from such
text a template spells its path. -/

namespace ClientBindings

/-! ## Scanning a path -/

namespace Placeholder
variable {cs front rest : List Char}

/-- A placeholder as a path spells it, and the literal text behind it. -/
def spelled (found : String × String) : List Char := '\x7b' :: found.1.toList ++ '\x7d' :: found.2.toList

/-- What a path may have behind literal text. -/
def Follows (cs : List Char) : Prop := cs = [] ∨ cs = ['\n'] ∨ ∃ rest, cs = '\x7b' :: rest

theorem span_eq_cons {mark x : Char} (h : cs.span (· != mark) = (front, x :: rest)) :
    cs = front ++ mark :: rest ∧ x = mark ∧ mark ∉ front := by
  rw [List.span_eq_takeWhile_dropWhile, Prod.mk.injEq] at h
  obtain ⟨rfl, hrest⟩ := h
  obtain rfl : x = mark := by
    have hnot := List.head?_dropWhile_not (· != mark) cs
    simpa [hrest] using hnot
  refine ⟨?_, rfl, fun hmem => ?_⟩
  · rw [← hrest, List.takeWhile_append_dropWhile]
  · simpa using List.mem_takeWhile_imp hmem

theorem span_eq_nil {mark : Char} (h : cs.span (· != mark) = (front, [])) : front = cs ∧ mark ∉ cs := by
  rw [List.span_eq_takeWhile_dropWhile, Prod.mk.injEq] at h
  obtain ⟨rfl, hrest⟩ := h
  rw [List.dropWhile_eq_nil_iff] at hrest
  refine ⟨List.takeWhile_eq_self_iff.mpr hrest, fun hmem => ?_⟩
  simpa using hrest mark hmem

theorem of_first? {cut : Cut} (h : first? cs = some cut) :
    cs = cut.head ++ '\x7b' :: cut.name ++ '\x7d' :: cut.rest ∧ '\x7b' ∉ cut.head ∧ cut.name ≠ [] := by
  unfold first? at h
  split at h
  case h_2 => cases h
  case h_1 head _ c tail hopened =>
    split at h
    case h_2 => cases h
    case h_1 name _ rest hclosed =>
      cases h
      obtain ⟨rfl, _, hhead⟩ := span_eq_cons hopened
      obtain ⟨rfl, _⟩ := span_eq_cons hclosed
      exact ⟨by simp, hhead, List.cons_ne_nil c name⟩

/-- An opening brace opens no placeholder if the closing ones behind it leave no name. -/
theorem not_mem_of_first? {c : Char} (h : first? ('\x7b' :: c :: cs) = none) : '\x7d' ∉ cs := by
  have hopened : ('\x7b' :: c :: cs).span (· != '\x7b') = ([], '\x7b' :: c :: cs) := by
    simp [List.span_eq_takeWhile_dropWhile]
  unfold first? at h
  rw [hopened] at h
  cases hclosed : cs.span (· != '\x7d') with
  | mk name rest =>
    cases rest with
    | nil => exact (span_eq_nil hclosed).2
    | cons x rest =>
      dsimp only at h
      rw [hclosed] at h
      cases h

theorem literal_spec (cs : List Char) : (literal cs).1 ++ (literal cs).2 = cs ∧ Follows (literal cs).2 := by
  unfold literal
  cases hspan : cs.span (· != '\x7b') with
  | mk text rest =>
    cases rest with
    | cons x rest =>
      obtain ⟨rfl, rfl, _⟩ := span_eq_cons hspan
      exact ⟨rfl, Or.inr (Or.inr ⟨rest, rfl⟩)⟩
    | nil =>
      obtain ⟨rfl, _⟩ := span_eq_nil hspan
      dsimp only
      split
      case h_1 front hreverse =>
        refine ⟨?_, Or.inr (Or.inl rfl)⟩
        rw [← List.reverse_cons, ← hreverse, List.reverse_reverse]
      case h_2 => exact ⟨List.append_nil _, Or.inl rfl⟩

/-- The first of what is scanned is in front of all placeholders or behind them. -/
theorem first?_of_follows (h : Follows cs) {cut : Cut} (hfirst : first? cs = some cut) : cut.head = [] := by
  obtain ⟨heq, hhead, _⟩ := of_first? hfirst
  rcases h with rfl | rfl | ⟨rest, rfl⟩
  · cases hfirst
  · cases hfirst
  · cases hcut : cut.head with
    | nil => rfl
    | cons c head =>
      rw [hcut] at heq hhead
      obtain ⟨rfl, _⟩ := List.cons.inj heq
      exact absurd List.mem_cons_self hhead

theorem scanFor_of_first? {cut : Cut} (rounds : Nat) (hfirst : first? cs = some cut) :
    scanFor (rounds + 1) cs = (cut.head ++ (scanFor rounds (literal cut.rest).2).1,
      (String.ofList cut.name, String.ofList (literal cut.rest).1) :: (scanFor rounds (literal cut.rest).2).2) := by
  rw [scanFor, hfirst]

/-- What is scanned behind literal text are placeholders and what is left over behind them. -/
structure Scanned (cs : List Char) (scan : List Char × List (String × String)) : Prop where
  text : scan.2.flatMap spelled ++ scan.1 = cs
  follows : Follows scan.1
  last : first? scan.1 = none
  named : ∀ found ∈ scan.2, found.1.toList ≠ []

theorem Scanned.cons {cut : Cut} {scan : List Char × List (String × String)} (hfirst : first? cs = some cut)
    (h : Scanned (literal cut.rest).2 scan) :
    Scanned ('\x7b' :: cut.name ++ '\x7d' :: cut.rest)
      (scan.1, (String.ofList cut.name, String.ofList (literal cut.rest).1) :: scan.2) where
  text := by
    conv_rhs => rw [← (literal_spec cut.rest).1, ← h.text]
    simp [spelled]
  follows := h.follows
  last := h.last
  named := by
    refine List.forall_mem_cons.mpr ⟨?_, h.named⟩
    simpa using (of_first? hfirst).2.2

theorem length_literal_lt {cut : Cut} (hfirst : first? cs = some cut) : (literal cut.rest).2.length < cs.length := by
  have hcs := congrArg List.length (of_first? hfirst).1
  have hrest := congrArg List.length (literal_spec cut.rest).1
  simp only [List.length_append, List.length_cons] at hcs hrest
  omega

theorem scanned_scanFor (rounds : Nat) (h : cs.length ≤ rounds) (hcs : Follows cs) : Scanned cs (scanFor rounds cs) := by
  induction rounds generalizing cs with
  | zero =>
    obtain rfl : cs = [] := List.length_eq_zero_iff.mp (Nat.le_zero.mp h)
    exact ⟨rfl, hcs, rfl, by simp [scanFor]⟩
  | succ rounds ih =>
    cases hfirst : first? cs with
    | none =>
      rw [scanFor, hfirst]
      exact ⟨rfl, hcs, hfirst, by simp⟩
    | some cut =>
      have hrest : Scanned (literal cut.rest).2 (scanFor rounds (literal cut.rest).2) :=
        ih (Nat.le_of_lt_succ (Nat.lt_of_lt_of_le (length_literal_lt hfirst) h)) (literal_spec cut.rest).2
      rw [scanFor_of_first? rounds hfirst, (of_first? hfirst).1, first?_of_follows hcs hfirst]
      exact hrest.cons hfirst

/-- What a path may have behind its last placeholder and the literal text of it. -/
def LeftOver (rest : List Char) : Prop := Follows rest ∧ first? rest = none

theorem leftOver_nil : LeftOver [] := ⟨Or.inl rfl, rfl⟩

/-- A path is the text in front of its placeholders, the placeholders, and what is left over; the first and the
last of these stay together. -/
theorem exists_scan (path : String) : ∃ front rest, path.toList = front ++ (scan path).2.flatMap spelled ++ rest ∧
    (scan path).1.toList = front ++ rest ∧ ('\x7b' ∉ front ∨ (scan path).2 = []) ∧ LeftOver rest ∧
    ∀ found ∈ (scan path).2, found.1.toList ≠ [] := by
  have hscan : scan path = (String.ofList (scanFor path.length path.toList).1, (scanFor path.length path.toList).2) := rfl
  rw [hscan, String.toList_ofList]
  cases hlength : path.length with
  | zero =>
    have hpath : path.toList = [] := List.length_eq_zero_iff.mp (by rw [String.length_toList, hlength])
    rw [hpath]
    exact ⟨[], [], rfl, rfl, Or.inr rfl, leftOver_nil, by simp [scanFor]⟩
  | succ rounds =>
    cases hfirst : first? path.toList with
    | none =>
      rw [scanFor, hfirst]
      exact ⟨path.toList, [], by simp, by simp, Or.inr rfl, leftOver_nil, by simp⟩
    | some cut =>
      have hle : (literal cut.rest).2.length ≤ rounds := by
        have hlt := length_literal_lt hfirst
        rw [String.length_toList, hlength] at hlt
        exact Nat.le_of_lt_succ hlt
      have hrest := (scanned_scanFor rounds hle (literal_spec cut.rest).2).cons hfirst
      obtain ⟨hpath, hhead, _⟩ := of_first? hfirst
      rw [scanFor_of_first? rounds hfirst]
      refine ⟨cut.head, _, ?_, rfl, Or.inl hhead, ⟨hrest.follows, hrest.last⟩, hrest.named⟩
      rw [List.append_assoc, hrest.text, hpath, List.append_assoc]

/-- Whether every opening brace can be closed around a name, and no line end closes the text. -/
def Closed (cs : List Char) : Prop := ¬ ['\n'] <:+ cs ∧ ∀ tail, '\x7b' :: tail <:+ cs → first? ('\x7b' :: tail) ≠ none

theorem LeftOver.eq_nil (h : LeftOver rest) (hclosed : Closed (front ++ rest)) : rest = [] := by
  rcases h.1 with hnil | rfl | ⟨tail, rfl⟩
  · exact hnil
  · exact absurd (List.suffix_append front _) hclosed.1
  · exact absurd h.2 (hclosed.2 tail (List.suffix_append front _))

/-! ## Text that could stand on either side -/

/-- A text that commutes with another one of which no proper part could, is made of copies of it. -/
theorem copies_of_commutes {a b : Char} (hab : a ≠ b) {rest cs : List Char} (hrest : b ∉ rest)
    (h : cs ++ a :: b :: rest = a :: b :: rest ++ cs) : ∃ n, cs = (List.replicate n (a :: b :: rest)).flatten := by
  induction hlength : cs.length using Nat.strong_induction_on generalizing cs with
  | _ length ih =>
    match cs with
    | [] => exact ⟨0, rfl⟩
    | [x] =>
      have hx : x = a ∧ a = b := by simp_all
      exact absurd hx.2 hab
    | x :: y :: cs =>
      obtain ⟨rfl, rfl, hcs⟩ : x = a ∧ y = b ∧ cs ++ a :: b :: rest = rest ++ a :: b :: cs := by simp_all
      rcases List.append_eq_append_iff.mp hcs with ⟨more, rfl, hmore⟩ | ⟨more, rfl, hmore⟩
      · match more with
        | [] => exact ⟨1, by simp⟩
        | [z] =>
          have hz : x = z ∧ y = x := by simp_all
          exact absurd hz.2.symm hab
        | z :: w :: more =>
          obtain rfl : y = w := by simp_all
          exact absurd (by simp) hrest
      · obtain ⟨n, hn⟩ := ih more.length (by simp at hlength; omega) hmore.symm rfl
        refine ⟨n + 1, ?_⟩
        rw [List.replicate_succ, List.flatten_cons, ← hn]
        rfl

theorem not_commutes {mark : Char} {cs rest : List Char} (hrest : mark ∉ rest) (hne : rest ≠ []) (hcs : mark ∈ cs) :
    cs ++ rest ≠ rest ++ cs := by
  obtain ⟨before, after, rfl, hbefore⟩ := List.eq_append_cons_of_mem hcs
  intro h
  rw [List.append_assoc, List.cons_append, ← List.append_assoc] at h
  have hpieces := congrArg (Text.splitOn mark) h
  rw [Text.splitOn_append hbefore, Text.splitOn_append (by simp [hrest, hbefore])] at hpieces
  exact hne (by simpa using (List.cons.inj hpieces).1)

theorem commutes_of_copies {rest : List Char} (n : Nat) :
    (List.replicate n rest).flatten ++ rest = rest ++ (List.replicate n rest).flatten := by
  rw [← List.flatten_concat, ← List.replicate_succ', List.replicate_succ, List.flatten_cons]

theorem exists_spelled {found : String × String} (h : found.1.toList ≠ []) (more : List Char) :
    ∃ c cs, spelled found ++ more = '\x7b' :: c :: cs ∧ '\x7d' ∈ cs := by
  obtain ⟨c, name, hname⟩ := List.exists_cons_of_ne_nil h
  exact ⟨c, name ++ '\x7d' :: found.2.toList ++ more, by simp [spelled, hname], by simp⟩

/-- Text that is left over could stand in front of the placeholders as well only if these spell copies of it. -/
theorem commutes_iff {found : List (String × String)} {rest : List Char} (hrest : LeftOver rest)
    (hfound : ∀ f ∈ found, f.1.toList ≠ []) :
    found.flatMap spelled ++ rest = rest ++ found.flatMap spelled ↔
      rest = [] ∨ ∃ n, found.flatMap spelled = (List.replicate n rest).flatten := by
  constructor
  · intro h
    cases found with
    | nil => exact Or.inr ⟨0, rfl⟩
    | cons f found =>
      obtain ⟨c, cs, hcs, hclosed⟩ := exists_spelled (hfound f List.mem_cons_self) (found.flatMap spelled)
      rw [List.flatMap_cons, hcs] at h ⊢
      rcases hrest.1 with rfl | rfl | ⟨tail, rfl⟩
      · exact Or.inl rfl
      · cases h
      · -- What is left over needs a closing brace, and has none but at the place of a name.
        have hmem : '\x7d' ∈ tail := by
          by_contra hnot
          have hrest : '\x7d' ∉ '\x7b' :: tail := by simpa using hnot
          exact not_commutes hrest (List.cons_ne_nil _ tail) (by simp [hclosed]) h
        match tail with
        | d :: tail =>
          have hlast := not_mem_of_first? hrest.2
          obtain rfl : '\x7d' = d := (List.mem_cons.mp hmem).resolve_right hlast
          exact Or.inr (copies_of_commutes (by decide) hlast h)
  · rintro (rfl | ⟨n, hn⟩)
    · exact List.append_nil _
    · rw [hn]
      exact commutes_of_copies n

end Placeholder

/-! ## Templates -/

/-- What a path has where a template has a span: a placeholder and the literal text behind it. The query is no
part of the path. -/
def UrlSpan.spelled (span : UrlSpan) : List Char :=
  match span.call with
  | .member { name := .scalar (.str name), .. } => Placeholder.spelled (name, span.literal)
  | _ => []

namespace UrlTemplate

/-- The spans of a template put back into the path. -/
def spelled (t : UrlTemplate) : List Char := t.spans.flatMap UrlSpan.spelled

def rejoined (t : UrlTemplate) : String := String.ofList (t.head.toList ++ t.spelled)

/-- A path cut into the text in front of its placeholders, the spans of a template, and text that is left over
behind them. The template has what is left over in front. -/
structure Splits (t : UrlTemplate) (path : String) (front rest : List Char) : Prop where
  path : path.toList = front ++ t.spelled ++ rest
  head : t.head.toList = front ++ rest
  front : '\x7b' ∉ front ∨ t.spelled = []
  rest : Placeholder.LeftOver rest

theorem Splits.rejoined_iff {t : UrlTemplate} {path : String} {front rest : List Char} (h : t.Splits path front rest) :
    t.rejoined = path ↔ t.spelled ++ rest = rest ++ t.spelled := by
  rw [rejoined, ← String.toList_inj, String.toList_ofList, h.path, h.head, List.append_assoc, List.append_assoc,
    List.append_cancel_left_eq, eq_comm]

end UrlTemplate

namespace OperationBinding
variable {document : Data} {naming : Naming} {location : String} {s : Compilation} {ps : Parameters}

theorem spelled_urlWith (ps : Parameters) (naming : Naming) (head : String) (found : List (String × String))
    (query : List Call) :
    (urlWith head (spansOf ps naming found) query).spelled = found.flatMap Placeholder.spelled := by
  have hspans : (spansOf ps naming found).flatMap UrlSpan.spelled = found.flatMap Placeholder.spelled := by
    rw [spansOf, List.flatMap_map]
    rfl
  rw [UrlTemplate.spelled, urlWith]
  split
  · exact hspans
  · rw [List.flatMap_append, hspans]
    exact List.append_nil _

/-- The template of any path, made from the parameters of an operation. It spells the path if nothing is left
over behind the last literal text. -/
theorem url_rejoined (h : Parameters.Classified document naming location ps s) (path : String)
    (schemes : List (Scalar × SecurityBinding)) :
    ∃ ps' spans url, Runs (pathSpans document naming location ps (Placeholder.scan path).2) s (ps', spans) s ∧
      url = urlWith (Placeholder.scan path).1 spans (queryOf ps' naming schemes) ∧
      ∃ front rest, url.Splits path front rest ∧ (Placeholder.Closed path.toList → rest = []) ∧
        (url.rejoined = path ↔ rest = [] ∨ ∃ n, url.spelled = (List.replicate n rest).flatten) := by
  obtain ⟨⟨ps', spans⟩, hrun, _⟩ := exists_pathSpans h.settled (Placeholder.scan path).2
  have hgrouped : ps.Grouped naming := h.settled.madeOf
  obtain ⟨_, hspans, _⟩ := pathSpans_runs hgrouped hrun
  obtain rfl : spans = spansOf ps' naming (Placeholder.scan path).2 := hspans
  obtain ⟨front, rest, hpath, hhead, hfront, hrest, hnamed⟩ := Placeholder.exists_scan path
  have hspelled := spelled_urlWith ps' naming (Placeholder.scan path).1 (Placeholder.scan path).2
    (queryOf ps' naming schemes)
  have hsplits : (urlWith (Placeholder.scan path).1 (spansOf ps' naming (Placeholder.scan path).2)
      (queryOf ps' naming schemes)).Splits path front rest :=
    ⟨hspelled ▸ hpath, hhead, hfront.imp_right fun hnone => by rw [hspelled, hnone]; rfl, hrest⟩
  refine ⟨ps', _, _, hrun, rfl, front, rest, hsplits, fun hclosed => hrest.eq_nil (hpath ▸ hclosed), ?_⟩
  rw [hsplits.rejoined_iff, hspelled]
  exact Placeholder.commutes_iff hrest hnamed

/-- Nothing is left over behind the extension. -/
theorem url_rejoined_rooms : ∃ ps s ps' spans url,
    Runs (Parameters.classify (.map []) {} "rooms.get" (.map []) .null) {} ps s ∧
    Runs (pathSpans (.map []) {} "rooms.get" ps (Placeholder.scan "/rooms/{id}.json").2) s (ps', spans) s ∧
    url = urlWith (Placeholder.scan "/rooms/{id}.json").1 spans (queryOf ps' {} []) ∧
    ∃ front rest, url.Splits "/rooms/{id}.json" front rest ∧ (Placeholder.Closed "/rooms/{id}.json".toList → rest = []) ∧
      (url.rejoined = "/rooms/{id}.json" ↔ rest = [] ∨ ∃ n, url.spelled = (List.replicate n rest).flatten) := by
  have hclassified : (Id.run ((Parameters.classify (.map []) {} "rooms.get" (.map []) .null).run {})).1.isOk = true := by
    decide +kernel
  obtain ⟨ps, s, hrun⟩ := Runs.exists_of_isOk hclassified
  obtain ⟨ps', spans, url, hurl⟩ := url_rejoined (.classify hrun) "/rooms/{id}.json" []
  exact ⟨ps, s, ps', spans, url, hrun, hurl⟩

/-- A brace that is left open behind a placeholder comes to stand in front of it. -/
theorem exists_url_not_rejoined : ∃ b t,
    Runs (bind (.map []) {} [] ⟨.str "go", .str "/{x}/a\x7bb", "get"⟩ (.map []) .null) {} b t ∧
      b.path = "/{x}/a\x7bb" ∧ b.url.rejoined = "/\x7bb{x}/a" := by
  have hcomputed : ((Id.run ((bind (.map []) {} [] ⟨.str "go", .str "/{x}/a\x7bb", "get"⟩ (.map []) .null).run {})).1.toOption.map
      fun b => (b.path, b.url.rejoined)) = some ("/{x}/a\x7bb", "/\x7bb{x}/a") := by decide +kernel
  obtain ⟨b, t, hrun, htexts⟩ := Runs.exists_of_toOption hcomputed
  exact ⟨b, t, hrun, (Prod.mk.inj htexts).1, (Prod.mk.inj htexts).2⟩

end OperationBinding
end ClientBindings
