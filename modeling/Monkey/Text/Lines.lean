/-!
# Lines

A text is cut into lines behind each line end, so that the lines in a row are the text again (`flatten_cutLines`).
What counts as a line end is a parameter: input is cut at newlines, a document in an editor at every character that
ends a line there. `unifyNewlines` writes every line end of a file as one newline.
-/

namespace Monkey

/-- Cut a text behind every character that ends a line, which may depend on what follows it. -/
def cutLines (endsLine : Char → List Char → Bool) : List Char → List (List Char)
  | [] => []
  | c :: cs =>
    if endsLine c cs then [c] :: cutLines endsLine cs
    else
      match cutLines endsLine cs with
      | [] => [[c]]
      | line :: lines => (c :: line) :: lines

/-- Nothing is lost in the cutting. -/
theorem flatten_cutLines (endsLine : Char → List Char → Bool) (cs : List Char) :
    (cutLines endsLine cs).flatten = cs := by
  induction cs with
  | nil => rfl
  | cons c cs ih =>
    unfold cutLines
    split
    · simp [ih]
    · split
      · next h =>
        rw [h] at ih
        exact congrArg (c :: ·) ih
      · next h =>
        rw [h] at ih
        exact congrArg (c :: ·) ih

/-- The lines of input, each with the newline that ends it. -/
def inputLines (text : String) : List String :=
  (cutLines (fun c _ => c = '\n') text.toList).map String.ofList

/-- Write every carriage return, alone or before a newline, as a newline. -/
def unifyNewlines : List Char → List Char
  | [] => []
  | '\r' :: '\n' :: cs => '\n' :: unifyNewlines cs
  | '\r' :: cs => '\n' :: unifyNewlines cs
  | c :: cs => c :: unifyNewlines cs

end Monkey
