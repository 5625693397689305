import ClientBindings.Proofs.Text
import ClientBindings.Document.FileTree
import ClientBindings.Source.ModuleText
import Mathlib.Data.List.Basic

/-! The lines of source text as readers of the language find them, where a carriage return ends a line as well.
They are the lines that were written, cut up further at carriage returns. -/

namespace ClientBindings

open Text

variable {cs front rest : List Char}

namespace FileTree

theorem unifyLineEnds_cons {c : Char} (hc : c ≠ '\r') (cs : List Char) :
    unifyLineEnds (c :: cs) = c :: unifyLineEnds cs := by
  rw [unifyLineEnds]
  · exact fun _ hreturn => absurd hreturn hc
  · exact hc

theorem unifyLineEnds_eq_self (h : '\r' ∉ cs) : unifyLineEnds cs = cs := by
  induction cs with
  | nil => rfl
  | cons c cs ih =>
    obtain ⟨hc, hcs⟩ := not_or.mp (mt List.mem_cons.mpr h)
    rw [unifyLineEnds_cons (Ne.symm hc), ih hcs]

/-- Line ends are read apart from each other unless they are the two halves of one. -/
theorem unifyLineEnds_append (h : front.getLast? = some '\r' → rest.head? ≠ some '\n') :
    unifyLineEnds (front ++ rest) = unifyLineEnds front ++ unifyLineEnds rest := by
  fun_induction unifyLineEnds front with
  | case1 cs ih =>
    have hrest := ih fun hlast => h (List.mem_getLast?_cons (List.mem_getLast?_cons hlast))
    exact congrArg ('\n' :: ·) hrest
  | case2 cs hcs ih =>
    have hrest := ih fun hlast => h (List.mem_getLast?_cons hlast)
    rw [List.cons_append, unifyLineEnds, hrest]
    · rfl
    intro tail htail
    cases cs with
    | nil => exact h rfl (congrArg List.head? htail)
    | cons c cs => exact hcs cs (congrArg (· :: cs) (List.cons.inj htail).1)
  | case3 c cs hpair hc ih =>
    have hrest := ih fun hlast => h (List.mem_getLast?_cons hlast)
    rw [List.cons_append, unifyLineEnds_cons (fun hreturn => hc hreturn), hrest]
    rfl
  | case4 => rfl

end FileTree

namespace Lines

theorem toList_text (lines : Lines) : (text lines).toList = lines.flatMap fun line => line.toList ++ ['\n'] := by
  rw [text, String.toList_join, List.flatMap_map]
  simp only [String.toList_append]
  rfl

theorem toList_text_cons (line : String) (lines : Lines) :
    (text (line :: lines)).toList = line.toList ++ '\n' :: (text lines).toList := by
  rw [toList_text, List.flatMap_cons, ← toList_text, List.append_assoc, List.singleton_append]

/-- The lines that source text is read as. A line feed, a carriage return and both together end a line. -/
def read (cs : List Char) : List (List Char) := splitOn '\n' (FileTree.unifyLineEnds cs)

theorem read_append_newline (h : front.getLast? ≠ some '\r') (rest : List Char) :
    read (front ++ '\n' :: rest) = read front ++ read rest := by
  rw [read, FileTree.unifyLineEnds_append fun hlast => absurd hlast h, FileTree.unifyLineEnds_cons (by decide),
    splitOn_append_cons]
  rfl

/-- A line that holds no line feed is cut up at its carriage returns. -/
theorem read_of_not_mem (h : '\n' ∉ cs) : read cs = splitOn '\r' cs := by
  rw [read]
  induction cs with
  | nil => rfl
  | cons c cs ih =>
    obtain ⟨hc, hcs⟩ := not_or.mp (mt List.mem_cons.mpr h)
    by_cases hreturn : c = '\r'
    · subst hreturn
      rw [FileTree.unifyLineEnds, splitOn, if_pos rfl, ih hcs, splitOn, if_pos rfl]
      rintro tail rfl
      exact hcs List.mem_cons_self
    · rw [FileTree.unifyLineEnds_cons hreturn, splitOn, if_neg (Ne.symm hc), ih hcs, splitOn, if_neg hreturn]

theorem read_join {lines : List (List Char)} (hne : lines ≠ []) (h : ∀ line ∈ lines, line.getLast? ≠ some '\r') :
    read (join ['\n'] lines) = lines.flatMap read := by
  induction lines with
  | nil => exact absurd rfl hne
  | cons line lines ih =>
    obtain ⟨hline, hlines⟩ := List.forall_mem_cons.mp h
    cases lines with
    | nil => rw [join, List.intercalate_singleton, List.flatMap_singleton]
    | cons next lines =>
      rw [join_cons_cons, List.append_assoc, List.singleton_append, read_append_newline hline,
        ih (List.cons_ne_nil _ _) hlines]
      rfl

/-- What is in front of the first line end begins the first line. -/
theorem read_append (hfeed : '\n' ∉ front) (hreturn : '\r' ∉ front) (rest : List Char) :
    read (front ++ rest) = (read rest).modifyHead (front ++ ·) := by
  rw [read, FileTree.unifyLineEnds_append fun hlast => absurd (List.mem_of_getLast? hlast) hreturn,
    FileTree.unifyLineEnds_eq_self hreturn, splitOn_append_of_not_mem hfeed]
  rfl

end Lines
end ClientBindings
