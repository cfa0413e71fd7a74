import LineCalculator.Text.Blank

/-! Names of variables: a letter, then letters, digits and underscores, of which the last is no
underscore. Letters and digits are those of ASCII, so that no other character can be part of
a name. -/

namespace LineCalculator.Name

def isStart (c : Char) : Bool :=
  c.isAlpha

def isPart (c : Char) : Bool :=
  c.isAlphanum || c == '_'

def isValid : Text → Bool
  | [] => false
  | c :: rest => isStart c && rest.all isPart && (c :: rest).getLast? != some '_'

theorem isPart_of_isStart {c : Char} (start : isStart c = true) : isPart c = true := by
  simp_all [isStart, isPart, Char.isAlphanum]

theorem isPart_of_mem {name : Text} (valid : isValid name = true) {c : Char}
    (member : c ∈ name) : isPart c = true := by
  cases name with
  | nil => cases member
  | cons first rest =>
    simp only [isValid, Bool.and_eq_true] at valid
    rcases List.mem_cons.1 member with rfl | later
    · exact isPart_of_isStart valid.1.1
    · exact List.all_eq_true.1 valid.1.2 c later

end LineCalculator.Name
