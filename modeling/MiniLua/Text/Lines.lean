/-!
Texts as lines, which are ended by `\n` or `\r\n`. Texts without line breaks, each written on a line
of its own, are the lines of what was written (`linesFrom_flatMap`).
-/

namespace MiniLua.Text

/-- A line that was kept backwards, without the `\r` of its line break. -/
def endedLine : List Char → List Char
  | '\r' :: line => line.reverse
  | line => line.reverse

/-- The lines of a text after those that are `done`, of which the last comes first; `line` is what
was read of the next one, backwards. -/
def linesFrom (done : List (List Char)) (line : List Char) : List Char → List (List Char)
  | [] => (if line.isEmpty then done else line.reverse :: done).reverse
  | '\n' :: rest => linesFrom (endedLine line :: done) [] rest
  | c :: rest => linesFrom done (c :: line) rest

/-- The lines of a text. The last one may lack its line break. -/
def lines (text : String) : List String := (linesFrom [] [] text.toList).map String.ofList

/-- The first line of a text, without its line break. -/
def firstLine (text : List Char) : List Char :=
  let line := text.takeWhile (· != '\n')
  if line.length < text.length && line.getLast? == some '\r' then line.dropLast else line

theorem endedLine_reverse {line : List Char} (h : line.getLast? ≠ some '\r') :
    endedLine line.reverse = line := by
  rw [← List.head?_reverse] at h
  unfold endedLine
  split
  · simp_all
  · exact line.reverse_reverse

theorem linesFrom_append {text : List Char} (h : '\n' ∉ text) (done : List (List Char))
    (line rest : List Char) :
    linesFrom done line (text ++ rest) = linesFrom done (text.reverse ++ line) rest := by
  induction text generalizing line with
  | nil => rfl
  | cons c text ih =>
    have hc : c ≠ '\n' := fun e ↦ h (e ▸ List.mem_cons_self)
    have ht : '\n' ∉ text := fun m ↦ h (List.mem_cons_of_mem _ m)
    simp [linesFrom, ih ht]

theorem linesFrom_flatMap {texts : List (List Char)}
    (h : ∀ text ∈ texts, '\n' ∉ text ∧ text.getLast? ≠ some '\r') (done : List (List Char)) :
    linesFrom done [] (texts.flatMap (· ++ ['\n'])) = done.reverse ++ texts := by
  induction texts generalizing done with
  | nil => simp [linesFrom]
  | cons text texts ih =>
    obtain ⟨hn, hr⟩ := h text List.mem_cons_self
    rw [List.flatMap_cons, List.append_assoc, linesFrom_append hn]
    simp [linesFrom, endedLine_reverse hr, ih fun t ht ↦ h t (List.mem_cons_of_mem _ ht)]

end MiniLua.Text
