import LineCalculator.Proofs.Coverage

/-! Which texts have no faults, said without reading them. Such a text has the characters of
expressions only, and where letters, digits and underscores stand together, they are digits and then
nothing or a name. Every other text offends at some place: with a foreign character, with a word
that ends in an underscore, or with an underscore that no word has begun before.

The main statement is that reading finds no fault in the first texts, and that otherwise its first
fault is the offence that stands leftmost. -/

namespace LineCalculator

def isLegal (c : Char) : Bool :=
  Name.isPart c || ['+', '-', '*', '/', '='].contains c || isGap c

namespace Text

/-- Letters, digits and underscores that stand together, with no more of them on either side. -/
structure MaximalRun (source before run after : Text) : Prop where
  split : source = before ++ run ++ after
  only : ∀ c ∈ run, Name.isPart c = true
  begins : StopsAt Name.isPart before.reverse
  ends : after.StopsAt Name.isPart

/-- Digits, or none, and then a name or nothing. -/
def Numbered (run : Text) : Prop :=
  ∃ digits name, run = digits ++ name ∧ (∀ c ∈ digits, c.isDigit = true) ∧
    (name = [] ∨ Name.isValid name = true)

structure Lexical (source : Text) : Prop where
  legal : ∀ c ∈ source, isLegal c = true
  runs : ∀ before run after, source.MaximalRun before run after → run.Numbered

/-- Whether a text ends within a word: a letter stands among the letters, digits and underscores at
its end. -/
def inWord (before : Text) : Bool :=
  (before.reverse.takeWhile Name.isPart).any Name.isStart

/-- What is wrong at a place, which has some text before it and some behind it. -/
inductive Offends (before : Text) : Text → ReadingFault → Prop
  | foreign {c : Char} (other : isLegal c = false) (rest : Text) :
    Offends before (c :: rest) (.unexpectedCharacter c)
  | underscore (outside : before.inWord = false) (rest : Text) :
    Offends before ('_' :: rest) (.unexpectedCharacter '_')
  | word {word rest : Text} (outside : before.inWord = false) (whole : Name.isWord word = true)
    (last : word.getLast? = some '_') (ends : rest.StopsAt Name.isPart) :
    Offends before (word ++ rest) (.invalidName word)

def Faultless (source : Text) : Prop :=
  ∀ before rest fault, source = before ++ rest → ¬Offends before rest fault

def Clear (before passed rest : Text) : Prop :=
  ∀ earlier later fault, passed = earlier ++ later → later ≠ [] →
    ¬Offends (before ++ earlier) (later ++ rest) fault

def LeftmostOffence (source : Text) (fault : ReadingFault) : Prop :=
  ∃ before rest, source = before ++ rest ∧ Clear [] before rest ∧ Offends before rest fault

def Between (before rest : Text) : Prop :=
  before.inWord = true → rest.StopsAt Name.isPart

theorem inWord_concat (before : Text) (c : Char) :
    inWord (before ++ [c]) = (Name.isPart c && (Name.isStart c || before.inWord)) := by
  cases part : Name.isPart c <;> simp [inWord, part]

theorem inWord_append {parts : Text} (only : ∀ c ∈ parts, Name.isPart c = true) (before : Text) :
    inWord (before ++ parts) = (parts.any Name.isStart || before.inWord) := by
  have reversed : ∀ c ∈ parts.reverse, Name.isPart c = true := by simpa using only
  simp only [inWord, List.reverse_append, List.takeWhile_append_of_pos reversed, List.any_append,
    List.any_reverse]

end Text

namespace Name

theorem isStart_of_isDigit {c : Char} (digit : c.isDigit = true) : isStart c = false :=
  Bool.eq_false_iff.2 fun start => Bool.eq_false_iff.1 (isDigit_of_isStart start) digit

theorem ne_underscore_of_isStart {c : Char} (start : isStart c = true) : c ≠ '_' := by
  rintro rfl
  cases start

theorem isPart_cases {c : Char} (part : isPart c = true) :
    c.isDigit = true ∨ isStart c = true ∨ c = '_' := by
  simp only [isPart, Char.isAlphanum, Bool.or_eq_true, beq_iff_eq] at part
  grind [isStart]

end Name

theorem Text.inWord_append_digits {digits : Text} (only : ∀ c ∈ digits, c.isDigit = true)
    (before : Text) : inWord (before ++ digits) = before.inWord := by
  have unlettered : digits.any Name.isStart = false := by
    simpa using fun c here => Name.isStart_of_isDigit (only c here)
  rw [inWord_append fun c here => Name.isPart_of_isDigit (only c here), unlettered, Bool.false_or]

theorem isLegal_of_isPart {c : Char} (part : Name.isPart c = true) : isLegal c = true := by
  simp [isLegal, part]

namespace Text

/-- What is wrong can be told from the first character, and from the word that it begins. -/
theorem Offends.first {before text : Text} {fault : ReadingFault}
    (offends : Offends before text fault) : ∃ c rest, text = c :: rest ∧
      (isLegal c = false ∧ fault = .unexpectedCharacter c ∨ before.inWord = false ∧
        (c = '_' ∧ fault = .unexpectedCharacter c ∨
          Name.isStart c = true ∧ (text.takeWhile Name.isPart).getLast? = some '_' ∧
            fault = .invalidName (text.takeWhile Name.isPart))) := by
  cases offends with
  | @foreign c other rest => exact ⟨c, rest, rfl, .inl ⟨other, rfl⟩⟩
  | underscore outside rest => exact ⟨'_', rest, rfl, .inr ⟨outside, .inl ⟨rfl, rfl⟩⟩⟩
  | @word word rest outside whole last ends =>
    rw [takeWhile_of_stopsAt (Name.isPart_of_mem_word whole) ends]
    obtain ⟨c, parts, rfl, start, -⟩ := Name.exists_of_isWord whole
    exact ⟨c, parts ++ rest, rfl, .inr ⟨outside, .inr ⟨start, last, rfl⟩⟩⟩

theorem Offends.unique {before text : Text} {fault other : ReadingFault}
    (offends : Offends before text fault) (again : Offends before text other) : fault = other := by
  obtain ⟨c, rest, rfl, here⟩ := offends.first
  obtain ⟨_, _, same, there⟩ := again.first
  cases same
  have apart (start : Name.isStart c = true) : isLegal c = true ∧ c ≠ '_' :=
    ⟨isLegal_of_isPart (Name.isPart_of_isStart start), Name.ne_underscore_of_isStart start⟩
  grind

namespace Clear

variable {before : Text}

theorem append {passed further rest : Text} (first : Clear before passed (further ++ rest))
    (second : Clear (before ++ passed) further rest) : Clear before (passed ++ further) rest := by
  intro earlier later fault split some offends
  rcases List.append_eq_append_iff.1 split with ⟨middle, rfl, rfl⟩ | ⟨middle, rfl, rfl⟩
  · rw [← List.append_assoc] at offends
    exact second middle later fault rfl some offends
  · rw [List.append_assoc] at offends
    by_cases done : middle = []
    · subst done
      rw [List.append_nil] at second
      exact second [] further fault rfl some (by simpa using offends)
    · exact first earlier middle fault rfl done offends

theorem of_plain {passed : Text} (plain : ∀ c ∈ passed, isLegal c = true ∧ c ≠ '_' ∧
    Name.isStart c = false) (rest : Text) : Clear before passed rest := by
  intro earlier later fault split some offends
  obtain ⟨c, behind, same, wrong⟩ := offends.first
  obtain ⟨c', more, rfl⟩ := List.exists_cons_of_ne_nil some
  cases same
  obtain ⟨legal, dashed, start⟩ := plain c (by simp [split])
  simp [legal, dashed, start] at wrong

theorem of_name {name rest : Text} (valid : Name.isValid name = true)
    (ends : rest.StopsAt Name.isPart) : Clear before name rest := by
  intro earlier later fault split some offends
  obtain ⟨whole, last⟩ := Name.isValid_iff.1 valid
  have only := Name.isPart_of_mem_word whole
  obtain ⟨first, parts, rfl, start, -⟩ := Name.exists_of_isWord whole
  obtain ⟨c, behind, same, wrong⟩ := offends.first
  obtain ⟨c', more, rfl⟩ := List.exists_cons_of_ne_nil some
  cases same
  have legal := isLegal_of_isPart (only c (by simp [split]))
  cases earlier with
  | nil =>
    cases split
    rw [takeWhile_of_stopsAt only ends] at wrong
    simp [legal, Name.ne_underscore_of_isStart start, last] at wrong
  | cons first' earlier =>
    have passed : ∀ c ∈ first' :: earlier, Name.isPart c = true :=
      fun c here => only c (split ▸ List.mem_append_left _ here)
    have inside : inWord (before ++ first' :: earlier) = true := by
      rw [inWord_append passed, ← (List.cons.inj split).1, List.any_cons, start]
      rfl
    simp [legal, inside] at wrong

end Clear

namespace Between

variable {before : Text}

theorem append {marks rest : Text} (between : Between before (marks ++ rest))
    (apart : ∀ c ∈ marks, Name.isPart c = false) : Between (before ++ marks) rest := by
  rcases List.eq_nil_or_concat marks with rfl | ⟨front, c, rfl⟩
  · simpa using between
  · intro inside
    rw [List.concat_eq_append, ← List.append_assoc, inWord_concat, apart c (by simp)] at inside
    cases inside

theorem outside {c : Char} {rest : Text} (between : Between before (c :: rest))
    (part : Name.isPart c = true) : before.inWord = false := by
  cases inside : before.inWord with
  | false => rfl
  | true =>
    have ends := between inside c rfl
    rw [part] at ends
    cases ends

end Between

/-- The middle part of a text has been passed: nothing is wrong there, and no word goes on behind
it. -/
structure Passes (before passed rest : Text) : Prop where
  clear : Clear before passed rest
  between : Between (before ++ passed) rest

namespace Passes

variable {before rest : Text}

theorem append {passed further : Text} (first : Passes before passed (further ++ rest))
    (second : Passes (before ++ passed) further rest) :
    Passes before (passed ++ further) rest where
  clear := first.clear.append second.clear
  between := List.append_assoc before passed further ▸ second.between

theorem of_marks {marks : Text} (between : Between before (marks ++ rest))
    (legal : ∀ c ∈ marks, isLegal c = true ∧ Name.isPart c = false) :
    Passes before marks rest where
  clear := by
    refine .of_plain (fun c here => ⟨(legal c here).1, ?_, ?_⟩) rest
    · rintro rfl
      cases (legal '_' here).2
    · exact Name.isStart_eq_false (legal c here).2
  between := between.append fun c here => (legal c here).2

theorem of_digits {digits : Text} (between : Between before (digits ++ rest))
    (only : ∀ c ∈ digits, c.isDigit = true) (some : digits ≠ []) :
    Passes before digits rest := by
  have parts (c : Char) (here : c ∈ digits) : Name.isPart c = true :=
    Name.isPart_of_isDigit (only c here)
  refine ⟨.of_plain (fun c here => ⟨isLegal_of_isPart (parts c here), ?_,
    Name.isStart_of_isDigit (only c here)⟩) rest, fun inside => ?_⟩
  · rintro rfl
    cases only '_' here
  · obtain ⟨first, later, rfl⟩ := List.exists_cons_of_ne_nil some
    rw [inWord_append_digits only, between.outside (parts first (by simp))] at inside
    cases inside

theorem of_name {name : Text} (valid : Name.isValid name = true)
    (ends : rest.StopsAt Name.isPart) : Passes before name rest where
  clear := .of_name valid ends
  between _ := ends

end Passes

end Text

open Text

theorem Step.legal_symbol (step : Step) :
    isLegal step.operator.symbol = true ∧ Name.isPart step.operator.symbol = false := by
  cases step <;> exact ⟨rfl, rfl⟩

theorem Step.legal_text (step : Step) :
    ∀ c ∈ step.text, isLegal c = true ∧ Name.isPart c = false := by
  simpa [Step.text] using step.legal_symbol

theorem legal_of_isGap {c : Char} (gap : isGap c = true) :
    isLegal c = true ∧ Name.isPart c = false := by
  refine ⟨by simp [isLegal, gap], Bool.eq_false_iff.2 fun part => ?_⟩
  rw [Name.isGap_of_isPart part] at gap
  cases gap

theorem Text.Passes.of_gaps {before gaps rest : Text} (between : Between before (gaps ++ rest))
    (skipped : gaps.AllGaps) : Passes before gaps rest :=
  .of_marks between fun c here => legal_of_isGap (skipped c here)

theorem Lexeme.passes {before text : Text} {token : Token} {behind : Unread}
    (lexeme : Lexeme text (.ok token) behind) (between : Between before text) :
    ∃ passed, text = passed ++ behind.text ∧ Passes before passed behind.text := by
  cases lexeme with
  | step step rest => exact ⟨step.text, rfl, .of_marks between step.legal_text⟩
  | @sign step rest single =>
    exact ⟨[step.operator.symbol], rfl,
      .of_marks between (List.forall_mem_singleton.2 step.legal_symbol)⟩
  | @symbol c token known rest =>
    refine ⟨[c], rfl, .of_marks between (List.forall_mem_singleton.2 ?_)⟩
    rcases Token.ofSymbol?_cases known with ⟨rfl, -⟩ | ⟨rfl, -⟩ | ⟨rfl, -⟩ <;> exact ⟨rfl, rfl⟩
  | number some only ends => exact ⟨_, rfl, .of_digits between only some⟩
  | @name word rest valid ends =>
    obtain ⟨steps, more, rfl, found, -⟩ := Unread.behindName_cases rest
    have name : Passes before word (steps.flatMap Step.text ++ more) := .of_name valid ends
    have marks : Passes (before ++ word) (steps.flatMap Step.text) more := by
      refine .of_marks name.between fun c here => ?_
      obtain ⟨step, -, member⟩ := List.mem_flatMap.1 here
      exact step.legal_text c member
    rw [found]
    exact ⟨word ++ steps.flatMap Step.text, by simp, name.append marks⟩

theorem eq_underscore_of_isLegal {c : Char} (legal : isLegal c = true) (gap : isGap c = false)
    (sign : ∀ step : Step, c ≠ step.operator.symbol) (digit : c.isDigit = false)
    (letter : Name.isStart c = false) (symbol : Token.ofSymbol? c = none) : c = '_' := by
  have plus : c ≠ '+' := sign .increment
  have minus : c ≠ '-' := sign .decrement
  have star : c ≠ '*' := by rintro rfl; cases symbol
  have slash : c ≠ '/' := by rintro rfl; cases symbol
  have equals : c ≠ '=' := by rintro rfl; cases symbol
  have alphabetic : c.isAlpha = false := letter
  simpa [isLegal, Name.isPart, Char.isAlphanum, gap, plus, minus, star, slash, equals, digit,
    alphabetic] using legal

theorem Lexeme.offends {before text : Text} {fault : ReadingFault} {behind : Unread}
    (lexeme : Lexeme text (.error fault) behind) (between : Between before text) :
    Offends before text fault := by
  cases lexeme with
  | @badName word rest whole last ends =>
    obtain ⟨first, parts, rfl, start, -⟩ := Name.exists_of_isWord whole
    exact .word (between.outside (Name.isPart_of_isStart start)) whole last ends
  | @unexpected c gap sign digit letter symbol rest =>
    cases known : isLegal c with
    | false => exact .foreign known rest
    | true =>
      obtain rfl := eq_underscore_of_isLegal known gap sign digit letter symbol
      exact .underscore (between.outside rfl) rest

namespace Unread

theorem Reads.passes {before : Text} {unread behind : Unread} {token : Token}
    (reads : Reads unread (.ok token) behind) (between : Between before unread.text) :
    ∃ passed, unread.text = passed ++ behind.text ∧ Passes before passed behind.text := by
  cases reads with
  -- The characters of a step that waits were passed together with its name.
  | waiting text step later => exact ⟨[], rfl, .of_marks between (by simp)⟩
  | @lexeme gaps text _ _ skipped here =>
    have first := Passes.of_gaps between skipped
    obtain ⟨passed, rfl, second⟩ := here.passes first.between
    exact ⟨gaps ++ passed, by simp, first.append second⟩
  | @finish gaps skipped =>
    exact ⟨gaps, by simp, .of_gaps (by simpa using between) skipped⟩

theorem Reads.offends {before : Text} {unread behind : Unread} {fault : ReadingFault}
    (reads : Reads unread (.error fault) behind) (between : Between before unread.text) :
    ∃ passed rest, unread.text = passed ++ rest ∧ Clear before passed rest ∧
      Offends (before ++ passed) rest fault := by
  cases reads with
  | @lexeme gaps text _ _ skipped here =>
    have first := Passes.of_gaps between skipped
    exact ⟨gaps, text, rfl, first.clear, here.offends first.between⟩

theorem exists_first_offence (unread : Unread) {before : Text}
    (between : Between before unread.text) :
    ∃ passed rest, unread.text = passed ++ rest ∧ Clear before passed rest ∧
      (rest = [] ∧ Item.faults unread.items = [] ∨
        ∃ fault, (Item.faults unread.items).head? = some fault ∧
          Offends (before ++ passed) rest fault) := by
  fun_induction items unread generalizing before with
  | case1 unread behind read =>
    have reads := reads_iff.2 read
    obtain ⟨passed, split, passes⟩ := reads.passes between
    rw [reads.eq_of_finish] at split passes
    exact ⟨passed, [], split, passes.clear, .inl ⟨rfl, rfl⟩⟩
  | case2 unread token behind read inside ih =>
    obtain ⟨passed, split, passes⟩ := (reads_iff.2 read).passes between
    obtain ⟨further, rest, same, clear, outcome⟩ := ih passes.between
    rw [same] at split passes
    refine ⟨passed ++ further, rest, ?_, passes.clear.append clear, ?_⟩
    · rw [split, List.append_assoc]
    · rw [← List.append_assoc]
      exact outcome
  | case3 unread fault behind read ih =>
    obtain ⟨passed, rest, split, clear, offends⟩ := (reads_iff.2 read).offends between
    exact ⟨passed, rest, split, clear, .inr ⟨fault, rfl, offends⟩⟩

end Unread

namespace Text

theorem exists_first_offence (source : Text) :
    ∃ passed rest, source = passed ++ rest ∧ Clear [] passed rest ∧
      (rest = [] ∧ Item.faults source.items = [] ∨
        ∃ fault, (Item.faults source.items).head? = some fault ∧ Offends passed rest fault) :=
  Unread.exists_first_offence ⟨source, []⟩ fun inside => by cases inside

theorem faults_eq_nil_iff {source : Text} : Item.faults source.items = [] ↔ source.Faultless := by
  obtain ⟨passed, rest, split, clear, ⟨rfl, none⟩ | ⟨fault, found, offends⟩⟩ :=
    source.exists_first_offence
  · refine iff_of_true none fun before rest fault same offends => ?_
    obtain ⟨c, behind, rfl, -⟩ := offends.first
    rw [split, List.append_nil] at same
    exact clear before (c :: behind) fault same (by simp) (by simpa using offends)
  · refine iff_of_false (fun none => ?_) fun fine => fine passed rest fault split offends
    rw [none] at found
    cases found

theorem LeftmostOffence.unique {source : Text} {fault other : ReadingFault}
    (leftmost : source.LeftmostOffence fault) (again : source.LeftmostOffence other) :
    fault = other := by
  obtain ⟨before, rest, rfl, clear, offends⟩ := leftmost
  obtain ⟨before', rest', split, clear', offends'⟩ := again
  have place : before = before' := by
    rcases List.append_eq_append_iff.1 split with ⟨more, rfl, rfl⟩ | ⟨more, rfl, rfl⟩
    · by_cases beyond : more = []
      · rw [beyond, List.append_nil]
      · exact absurd offends (clear' before more fault rfl beyond)
    · by_cases beyond : more = []
      · rw [beyond, List.append_nil]
      · exact absurd offends' (clear before' more other rfl beyond)
  subst place
  rw [← List.append_cancel_left split] at offends'
  exact offends.unique offends'

theorem head?_faults_eq_some_iff {source : Text} {fault : ReadingFault} :
    (Item.faults source.items).head? = some fault ↔ source.LeftmostOffence fault := by
  obtain ⟨passed, rest, split, clear, outcome⟩ := source.exists_first_offence
  constructor
  · intro first
    rcases outcome with ⟨-, none⟩ | ⟨found, same, offends⟩
    · rw [none] at first
      cases first
    · cases first.symm.trans same
      exact ⟨passed, rest, split, clear, offends⟩
  · intro leftmost
    rcases outcome with ⟨-, none⟩ | ⟨found, same, offends⟩
    · obtain ⟨before, behind, place, -, offends⟩ := leftmost
      exact absurd offends (faults_eq_nil_iff.1 none before behind fault place)
    · rw [same, leftmost.unique ⟨passed, rest, split, clear, offends⟩]

theorem inWord_of_stopsAt {before : Text} (stops : StopsAt Name.isPart before.reverse) :
    before.inWord = false := by
  have none : ([] ++ before.reverse).takeWhile Name.isPart = [] :=
    takeWhile_of_stopsAt (fun c here => by cases here) stops
  rw [List.nil_append] at none
  rw [inWord, none, List.any_nil]

theorem exists_maximalRun (before : Text) {parts rest : Text}
    (only : ∀ c ∈ parts, Name.isPart c = true) (ends : rest.StopsAt Name.isPart) :
    ∃ front inside, MaximalRun (before ++ (parts ++ rest)) front (inside ++ parts) rest ∧
      inside.any Name.isStart = before.inWord := by
  let front := (before.reverse.dropWhile Name.isPart).reverse
  let inside := (before.reverse.takeWhile Name.isPart).reverse
  have split : front ++ inside = before := by
    rw [← List.reverse_append, List.takeWhile_append_dropWhile, List.reverse_reverse]
  refine ⟨front, inside, ⟨?_, fun c here => ?_, ?_, ends⟩, List.any_reverse⟩
  · rw [← List.append_assoc front, split, List.append_assoc]
  · rcases List.mem_append.1 here with passed | later
    · exact List.all_eq_true.1 List.all_takeWhile c (List.mem_reverse.1 passed)
    · exact only c later
  · rw [List.reverse_reverse]
    exact stopsAt_dropWhile Name.isPart before.reverse

namespace Numbered

theorem getLast?_ne {run : Text} (numbered : run.Numbered) : run.getLast? ≠ some '_' := by
  obtain ⟨digits, name, rfl, only, rfl | valid⟩ := numbered
  · intro last
    rw [List.append_nil] at last
    cases only '_' (List.mem_of_getLast? last)
  · have last := (Name.isValid_iff.1 valid).2
    cases name with
    | nil => cases valid
    | cons first parts => simpa [List.getLast?_append] using last

theorem mem_letter {inside parts : Text} (numbered : Numbered (inside ++ '_' :: parts)) :
    ∃ c ∈ inside, Name.isStart c = true := by
  obtain ⟨digits, name, split, only, named⟩ := numbered
  have dashed : '_' ∉ digits := fun here => by cases only '_' here
  obtain rfl | valid := named
  · exact absurd (by rw [← List.append_nil digits, ← split]; simp) dashed
  · obtain ⟨first, later, rfl, start, -⟩ := Name.exists_of_isWord (Name.isValid_iff.1 valid).1
    have other := Name.ne_underscore_of_isStart start
    rcases List.append_eq_append_iff.1 split with ⟨more, rfl, same⟩ | ⟨more, rfl, same⟩
    · cases more with
      | nil => exact absurd (List.cons.inj same).1.symm other
      | cons c more =>
        obtain rfl := (List.cons.inj same).1
        simp at dashed
    · cases more with
      | nil => exact absurd (List.cons.inj same).1 other
      | cons c more => exact ⟨first, by simp [(List.cons.inj same).1], start⟩

end Numbered

theorem Lexical.faultless {source : Text} (lexical : source.Lexical) : source.Faultless := by
  rintro before rest fault rfl offends
  cases offends with
  | @foreign c other rest =>
    have known := lexical.legal c (by simp)
    simp [other] at known
  | underscore outside rest =>
    have only : ∀ c ∈ '_' :: rest.takeWhile Name.isPart, Name.isPart c = true :=
      List.forall_mem_cons.2 ⟨rfl, List.all_eq_true.1 List.all_takeWhile⟩
    obtain ⟨front, inside, maximal, begun⟩ :=
      before.exists_maximalRun only (stopsAt_dropWhile Name.isPart rest)
    rw [List.cons_append, List.takeWhile_append_dropWhile] at maximal
    obtain ⟨c, here, start⟩ := (lexical.runs _ _ _ maximal).mem_letter
    rw [← begun] at outside
    exact absurd start (by simpa using List.any_eq_false.1 outside c here)
  | @word word rest outside whole last ends =>
    obtain ⟨front, inside, maximal, -⟩ :=
      before.exists_maximalRun (Name.isPart_of_mem_word whole) ends
    refine (lexical.runs _ _ _ maximal).getLast?_ne ?_
    rw [List.getLast?_append, last]
    rfl

theorem Faultless.isLegal {source : Text} (faultless : source.Faultless) {c : Char}
    (here : c ∈ source) : isLegal c = true := by
  cases known : LineCalculator.isLegal c with
  | true => rfl
  | false =>
    obtain ⟨before, rest, split⟩ := List.append_of_mem here
    exact absurd (.foreign known rest) (faultless before (c :: rest) _ split)

theorem MaximalRun.numbered {source before run after : Text}
    (maximal : source.MaximalRun before run after) (faultless : source.Faultless) :
    run.Numbered := by
  obtain ⟨rfl, only, begins, ends⟩ := maximal
  let digits := run.takeWhile Char.isDigit
  have cut : digits ++ run.dropWhile Char.isDigit = run := List.takeWhile_append_dropWhile
  have numbers : ∀ c ∈ digits, c.isDigit = true := List.all_eq_true.1 List.all_takeWhile
  refine ⟨digits, run.dropWhile Char.isDigit, cut.symm, numbers, ?_⟩
  cases behind : run.dropWhile Char.isDigit with
  | nil => exact .inl rfl
  | cons c parts =>
    right
    rw [behind] at cut
    have outside : inWord (before ++ digits) = false := by
      rw [inWord_append_digits numbers, inWord_of_stopsAt begins]
    have place : before ++ run ++ after = (before ++ digits) ++ (c :: parts ++ after) := by
      simp [← cut]
    rw [← cut, List.forall_mem_append] at only
    have undigit : c.isDigit = false := stopsAt_dropWhile Char.isDigit run c (by rw [behind]; rfl)
    rcases Name.isPart_cases (only.2 c (by simp)) with digit | start | rfl
    · rw [undigit] at digit
      cases digit
    · have whole : Name.isWord (c :: parts) = true := by
        simpa [Name.isWord, start] using fun d here => only.2 d (by simp [here])
      exact Name.isValid_iff.2 ⟨whole, fun last =>
        faultless _ _ _ place (.word outside whole last ends)⟩
    · exact absurd (.underscore outside (parts ++ after)) (faultless _ _ _ place)

theorem lexical_iff {source : Text} : source.Lexical ↔ source.Faultless :=
  ⟨Lexical.faultless, fun faultless =>
    ⟨fun _ here => faultless.isLegal here, fun _ _ _ maximal => maximal.numbered faultless⟩⟩

/-- Reading a text to its end finds no fault exactly when the text follows the lexical grammar.
Otherwise the first fault is the leftmost offence: a word that ends in an underscore as a whole, or
the character that is foreign or is an underscore outside of words. -/
theorem items_follow_grammar (source : Text) :
    (Item.faults source.items = [] ↔ source.Lexical) ∧
      ∀ fault, (Item.faults source.items).head? = some fault ↔ source.LeftmostOffence fault :=
  ⟨faults_eq_nil_iff.trans lexical_iff.symm, fun _ => head?_faults_eq_some_iff⟩

theorem items_follow_grammar_behind_digits :
    Lexical "12ab_3 a__b++".toList ∧ ¬Lexical "12ab_3 1_ b_".toList ∧
      LeftmostOffence "12ab_3 1_ b_".toList (.unexpectedCharacter '_') ∧
      LeftmostOffence "12ab_3 1b_ _".toList (.invalidName "b_".toList) := by
  have first (source : Text) (fault : ReadingFault)
      (found : (Item.faults (Unread.itemsWithin (source.length + 1) ⟨source, []⟩)).head? =
        some fault) : source.LeftmostOffence fault :=
    ((items_follow_grammar source).2 fault).1 (by rw [Text.items_eq, found])
  refine ⟨(items_follow_grammar _).1.1 ?_, fun lexical => ?_, first _ _ rfl, first _ _ rfl⟩
  · rw [Text.items_eq]
    rfl
  · have none := (items_follow_grammar _).1.2 lexical
    rw [Text.items_eq] at none
    cases none

end Text

end LineCalculator
