import LineCalculator.Proofs.Items

/-! What reading takes off a text. Behind gaps stands a lexeme: a sign, a step, a symbol, a run of
digits, a word, or a character that begins none of these. Each kind says which characters it has
and where it ends, so that it can be recognized in a longer text.

The main statement is that the next item of a text is its first lexeme and no other. -/

namespace LineCalculator

/-- A text that does not go on with a character of some kind. -/
def Text.StopsAt (kind : Char → Bool) (rest : Text) : Prop :=
  ∀ c, rest.head? = some c → kind c = false

def Text.AllGaps (gaps : Text) : Prop :=
  ∀ c ∈ gaps, isGap c = true

/-- A letter with letters, digits and underscores behind it. Those that do not end in an underscore
are the valid names. -/
def Name.isWord : Text → Bool
  | [] => false
  | c :: rest => isStart c && rest.all isPart

theorem Name.isValid_iff {name : Text} :
    isValid name = true ↔ isWord name = true ∧ name.getLast? ≠ some '_' := by
  cases name <;> simp [isValid, isWord]

/-- The lexeme at the beginning of a text, the item that it makes, and what is unread behind it. -/
inductive Lexeme : Text → Item → Unread → Prop
  | step (step : Step) (rest : Text) :
    Lexeme (step.text ++ rest) (.ok (.stepBefore step)) ⟨rest, []⟩
  | sign (step : Step) {rest : Text} (single : rest.StopsAt (· == step.operator.symbol)) :
    Lexeme (step.operator.symbol :: rest) (.ok (.operator step.operator)) ⟨rest, []⟩
  | symbol {c : Char} {token : Token} (known : Token.ofSymbol? c = some token) (rest : Text) :
    Lexeme (c :: rest) (.ok token) ⟨rest, []⟩
  | number {digits rest : Text} (some : digits ≠ []) (only : ∀ c ∈ digits, c.isDigit = true)
    (ends : rest.StopsAt Char.isDigit) : Lexeme (digits ++ rest) (.ok (.number digits)) ⟨rest, []⟩
  | name {word rest : Text} (valid : Name.isValid word = true) (ends : rest.StopsAt Name.isPart) :
    Lexeme (word ++ rest) (.ok (.name word)) (Unread.behindName rest)
  | badName {word rest : Text} (whole : Name.isWord word = true)
    (last : word.getLast? = some '_') (ends : rest.StopsAt Name.isPart) :
    Lexeme (word ++ rest) (.error (.invalidName word)) ⟨rest, []⟩
  | unexpected {c : Char} (gap : isGap c = false) (sign : ∀ step : Step, c ≠ step.operator.symbol)
    (digit : c.isDigit = false) (letter : Name.isStart c = false)
    (symbol : Token.ofSymbol? c = none) (rest : Text) :
    Lexeme (c :: rest) (.error (.unexpectedCharacter c)) ⟨rest, []⟩

namespace Text

theorem stopsAt_dropWhile (kind : Char → Bool) (t : Text) : StopsAt kind (t.dropWhile kind) := by
  intro c first
  have stop := List.head?_dropWhile_not kind t
  rwa [first] at stop

theorem stopsAt_nil (kind : Char → Bool) : StopsAt kind [] := by
  intro c first
  cases first

theorem stopsAt_cons {kind : Char → Bool} {c : Char} (other : kind c = false) (rest : Text) :
    StopsAt kind (c :: rest) := by
  intro first same
  cases same
  exact other

section Span

variable {kind : Char → Bool} {front rest : Text} (only : ∀ c ∈ front, kind c = true)
  (ends : rest.StopsAt kind)

include only ends

theorem dropWhile_of_stopsAt : (front ++ rest).dropWhile kind = rest := by
  rw [List.dropWhile_append_of_pos only]
  cases rest with
  | nil => rfl
  | cons c rest => simp [ends c rfl]

theorem takeWhile_of_stopsAt : (front ++ rest).takeWhile kind = front := by
  rw [List.takeWhile_append_of_pos only]
  cases rest with
  | nil => simp
  | cons c rest => simp [ends c rfl]

end Span

end Text

namespace Name

theorem isDigit_of_isStart {c : Char} (start : isStart c = true) : c.isDigit = false := by
  have letter : (decide ('A'.val ≤ c.val ∧ c.val ≤ 'Z'.val) ||
      decide ('a'.val ≤ c.val) && decide (c.val ≤ 'z'.val)) = true := start
  simp only [Bool.or_eq_true, Bool.and_eq_true, decide_eq_true_eq, UInt32.le_iff_toNat_le] at letter
  simp only [Char.isDigit, Bool.and_eq_false_iff, decide_eq_false_iff_not, ge_iff_le,
    UInt32.le_iff_toNat_le]
  have nine : '9'.val.toNat = 57 := rfl
  have capital : 'A'.val.toNat = 65 := rfl
  have small : 'a'.val.toNat = 97 := rfl
  omega

theorem isPart_of_isDigit {c : Char} (digit : c.isDigit = true) : isPart c = true := by
  simp [isPart, Char.isAlphanum, digit]

theorem isStart_eq_false {c : Char} (other : isPart c = false) : isStart c = false :=
  Bool.eq_false_iff.2 fun start => Bool.eq_false_iff.1 other (isPart_of_isStart start)

theorem isDigit_eq_false {c : Char} (other : isPart c = false) : c.isDigit = false :=
  Bool.eq_false_iff.2 fun digit => Bool.eq_false_iff.1 other (isPart_of_isDigit digit)

theorem isGap_of_isPart {c : Char} (part : isPart c = true) : isGap c = false := by
  cases gap : isGap c with
  | false => rfl
  | true =>
    simp only [isGap, Bool.or_eq_true, beq_iff_eq] at gap
    rcases gap with (((rfl | rfl) | rfl) | rfl) | rfl <;> cases part

theorem exists_of_isWord {word : Text} (whole : isWord word = true) :
    ∃ first parts, word = first :: parts ∧ isStart first = true ∧
      ∀ c ∈ parts, isPart c = true := by
  cases word with
  | nil => cases whole
  | cons first parts =>
    rw [isWord, Bool.and_eq_true] at whole
    exact ⟨first, parts, rfl, whole.1, List.all_eq_true.1 whole.2⟩

theorem isPart_of_mem_word {word : Text} (whole : isWord word = true) :
    ∀ c ∈ word, isPart c = true := by
  obtain ⟨first, parts, rfl, start, only⟩ := exists_of_isWord whole
  exact List.forall_mem_cons.2 ⟨isPart_of_isStart start, only⟩

end Name

namespace Unread

theorem readSign_self (step : Step) (rest : Text) :
    readSign step (step.operator.symbol :: rest) = (.ok (.stepBefore step), ⟨rest, []⟩) := by
  simp [readSign]

theorem readSign_of_stopsAt {step : Step} {rest : Text}
    (single : rest.StopsAt (· == step.operator.symbol)) :
    readSign step rest = (.ok (.operator step.operator), ⟨rest, []⟩) := by
  cases rest with
  | nil => rfl
  | cons c rest => simpa [readSign] using single c rfl

theorem readFrom_sign (step : Step) (rest : Text) :
    readFrom step.operator.symbol rest = readSign step rest := by
  cases step <;> rfl

theorem readFrom_digit {first : Char} (digit : first.isDigit = true) (rest : Text) :
    readFrom first rest =
      (.ok (.number (first :: rest.takeWhile Char.isDigit)),
        ⟨rest.dropWhile Char.isDigit, []⟩) := by
  have plus : first ≠ '+' := by rintro rfl; cases digit
  have minus : first ≠ '-' := by rintro rfl; cases digit
  rw [readFrom, if_neg plus, if_neg minus, if_pos digit]

theorem readFrom_letter {first : Char} (start : Name.isStart first = true) (rest : Text) :
    readFrom first rest = readWord first rest := by
  have plus : first ≠ '+' := by rintro rfl; cases start
  have minus : first ≠ '-' := by rintro rfl; cases start
  have digit := Name.isDigit_of_isStart start
  rw [readFrom, if_neg plus, if_neg minus, if_neg (by simp [digit]), if_pos start]

theorem readWord_of_stopsAt {first : Char} {parts rest : Text}
    (only : ∀ c ∈ parts, Name.isPart c = true) (ends : rest.StopsAt Name.isPart) :
    readWord first (parts ++ rest) =
      if (first :: parts).getLast? = some '_' then
        (.error (.invalidName (first :: parts)), ⟨rest, []⟩)
      else (.ok (.name (first :: parts)), behindName rest) := by
  rw [readWord, Text.takeWhile_of_stopsAt only ends, Text.dropWhile_of_stopsAt only ends]

end Unread

namespace Lexeme

open Unread

theorem readFrom_eq {text : Text} {item : Item} {behind : Unread}
    (lexeme : Lexeme text item behind) :
    ∃ first rest, text = first :: rest ∧ isGap first = false ∧
      readFrom first rest = (item, behind) := by
  cases lexeme with
  | step step rest =>
    refine ⟨step.operator.symbol, step.operator.symbol :: rest, rfl, by cases step <;> rfl, ?_⟩
    rw [readFrom_sign, readSign_self]
  | @sign step rest single =>
    refine ⟨step.operator.symbol, rest, rfl, by cases step <;> rfl, ?_⟩
    rw [readFrom_sign, readSign_of_stopsAt single]
  | @symbol c token known rest =>
    refine ⟨c, rest, rfl, ?_⟩
    rcases Token.ofSymbol?_cases known with ⟨rfl, rfl⟩ | ⟨rfl, rfl⟩ | ⟨rfl, rfl⟩ <;>
      exact ⟨rfl, rfl⟩
  | @number digits rest some only ends =>
    cases digits with
    | nil => exact absurd rfl some
    | cons first digits =>
      have digit := only first (by simp)
      have later : ∀ c ∈ digits, c.isDigit = true := fun c here => only c (by simp [here])
      refine ⟨first, digits ++ rest, rfl, Name.isGap_of_isPart (Name.isPart_of_isDigit digit), ?_⟩
      rw [readFrom_digit digit, Text.takeWhile_of_stopsAt later ends,
        Text.dropWhile_of_stopsAt later ends]
  | @name word rest valid ends =>
    obtain ⟨whole, last⟩ := Name.isValid_iff.1 valid
    obtain ⟨first, parts, rfl, start, only⟩ := Name.exists_of_isWord whole
    refine ⟨first, parts ++ rest, rfl, Name.isGap_of_isPart (Name.isPart_of_isStart start), ?_⟩
    rw [readFrom_letter start, readWord_of_stopsAt only ends, if_neg last]
  | @badName word rest whole last ends =>
    obtain ⟨first, parts, rfl, start, only⟩ := Name.exists_of_isWord whole
    refine ⟨first, parts ++ rest, rfl, Name.isGap_of_isPart (Name.isPart_of_isStart start), ?_⟩
    rw [readFrom_letter start, readWord_of_stopsAt only ends, if_pos last]
  | @unexpected c gap sign digit letter symbol rest =>
    refine ⟨c, rest, rfl, gap, ?_⟩
    have plus : c ≠ '+' := sign .increment
    have minus : c ≠ '-' := sign .decrement
    simp [readFrom, plus, minus, digit, letter, symbol]

theorem of_readSign (step : Step) (rest : Text) :
    Lexeme (step.operator.symbol :: rest) (readSign step rest).1 (readSign step rest).2 := by
  cases rest with
  | nil => exact .sign step (Text.stopsAt_nil _)
  | cons c rest =>
    by_cases doubled : c = step.operator.symbol
    · rw [doubled, readSign_self]
      exact .step step rest
    · have single : Text.StopsAt (· == step.operator.symbol) (c :: rest) :=
        Text.stopsAt_cons (by simpa using doubled) rest
      rw [readSign_of_stopsAt single]
      exact .sign step single

theorem of_readWord {first : Char} (start : Name.isStart first = true) (rest : Text) :
    Lexeme (first :: rest) (readWord first rest).1 (readWord first rest).2 := by
  have whole : Name.isWord (first :: rest.takeWhile Name.isPart) = true := by
    simp [Name.isWord, start, List.all_takeWhile]
  have ends := Text.stopsAt_dropWhile Name.isPart rest
  have split : first :: rest =
      (first :: rest.takeWhile Name.isPart) ++ rest.dropWhile Name.isPart := by simp
  rw [readWord]
  by_cases last : (first :: rest.takeWhile Name.isPart).getLast? = some '_'
  · rw [if_pos last, split]
    exact .badName whole last ends
  · rw [if_neg last, split]
    exact .name (Name.isValid_iff.2 ⟨whole, last⟩) ends

theorem of_readFrom {first : Char} (shown : isGap first = false) (rest : Text) :
    Lexeme (first :: rest) (readFrom first rest).1 (readFrom first rest).2 := by
  rw [readFrom]
  split
  · next plus => exact plus ▸ of_readSign .increment rest
  split
  · next minus => exact minus ▸ of_readSign .decrement rest
  split
  · next digit =>
    have split : first :: rest =
        (first :: rest.takeWhile Char.isDigit) ++ rest.dropWhile Char.isDigit := by simp
    have only : ∀ c ∈ first :: rest.takeWhile Char.isDigit, c.isDigit = true := by
      intro c member
      rcases List.mem_cons.1 member with rfl | later
      · exact digit
      · exact List.all_eq_true.1 List.all_takeWhile c later
    rw [split]
    exact .number (by simp) only (Text.stopsAt_dropWhile _ _)
  split
  · next start => exact of_readWord start rest
  · next plus minus digit letter =>
    split
    · next token known => exact .symbol known rest
    · next unknown =>
      refine .unexpected shown (fun step => ?_) (by simpa using digit) (by simpa using letter)
        unknown rest
      cases step
      · exact plus
      · exact minus

theorem ne_finish {text : Text} {item : Item} {behind : Unread}
    (lexeme : Lexeme text item behind) : item ≠ .ok .finish := by
  cases lexeme with
  | @symbol c token known rest =>
    rcases Token.ofSymbol?_cases known with ⟨-, rfl⟩ | ⟨-, rfl⟩ | ⟨-, rfl⟩ <;> simp
  | step | sign | number | name | badName | unexpected => simp

theorem isLexical {text : Text} {fault : ReadingFault} {behind : Unread}
    (lexeme : Lexeme text (.error fault) behind) : fault.IsLexical := by
  cases lexeme with
  | badName | unexpected => exact trivial

end Lexeme

namespace Unread

/-- What comes next: a step that waits, the first lexeme behind gaps, or the end. -/
inductive Reads : Unread → Item → Unread → Prop
  | waiting (text : Text) (step : Step) (later : List Step) :
    Reads ⟨text, step :: later⟩ (.ok (.stepAfter step)) ⟨text, later⟩
  | lexeme {gaps text : Text} {item : Item} {behind : Unread} (skipped : gaps.AllGaps)
    (here : Lexeme text item behind) : Reads ⟨gaps ++ text, []⟩ item behind
  | finish {gaps : Text} (skipped : gaps.AllGaps) : Reads ⟨gaps, []⟩ (.ok .finish) ⟨[], []⟩

theorem reads_next (unread : Unread) : Reads unread unread.next.1 unread.next.2 := by
  obtain ⟨text, waiting⟩ := unread
  cases waiting with
  | cons step later => exact .waiting text step later
  | nil =>
    have skipped : Text.AllGaps (text.takeWhile isGap) := List.all_eq_true.1 List.all_takeWhile
    have split : text = text.takeWhile isGap ++ text.dropWhile isGap := by simp
    cases behind : text.dropWhile isGap with
    | nil =>
      rw [behind, List.append_nil] at split
      rw [next, behind]
      exact .finish (split ▸ skipped)
    | cons first rest =>
      have shown : isGap first = false := Text.stopsAt_dropWhile isGap text first (by simp [behind])
      rw [next, behind]
      rw [split, behind]
      exact .lexeme skipped (.of_readFrom shown rest)

theorem next_of_reads {unread behind : Unread} {item : Item} (reads : Reads unread item behind) :
    unread.next = (item, behind) := by
  cases reads with
  | waiting text step later => rfl
  | lexeme skipped here =>
    obtain ⟨first, rest, rfl, shown, found⟩ := here.readFrom_eq
    rw [next, Text.dropWhile_of_stopsAt skipped (Text.stopsAt_cons shown rest)]
    exact found
  | @finish gaps skipped =>
    have none : gaps.dropWhile isGap = [] := by
      simpa using Text.dropWhile_of_stopsAt skipped (Text.stopsAt_nil isGap)
    rw [next, none]

theorem next_of_lexeme {text : Text} {item : Item} {behind : Unread}
    (lexeme : Lexeme text item behind) : next ⟨text, []⟩ = (item, behind) := by
  have none : Text.AllGaps [] := fun c here => by cases here
  exact next_of_reads (.lexeme none lexeme)

theorem next_of_isValid {name : Text} (valid : Name.isValid name = true) :
    next ⟨name, []⟩ = (.ok (.name name), ⟨[], []⟩) := by
  have lexeme : Lexeme (name ++ []) (.ok (.name name)) ⟨[], []⟩ := .name valid (Text.stopsAt_nil _)
  simpa using next_of_lexeme lexeme

theorem reads_iff {unread behind : Unread} {item : Item} :
    Reads unread item behind ↔ unread.next = (item, behind) := by
  refine ⟨next_of_reads, fun found => ?_⟩
  have reads := reads_next unread
  rwa [found] at reads

theorem Reads.isLexical {unread behind : Unread} {fault : ReadingFault}
    (reads : Reads unread (.error fault) behind) : fault.IsLexical := by
  cases reads with
  | lexeme skipped lexeme => exact lexeme.isLexical

theorem isLexical_of_mem_items {unread : Unread} {fault : ReadingFault}
    (here : .error fault ∈ unread.items) : fault.IsLexical := by
  obtain ⟨place, read⟩ := exists_next_of_mem_items here
  have reads := reads_next place
  rw [read] at reads
  exact reads.isLexical

theorem behindName_of_keeps {f : Text → Text}
    (sign : ∀ (step : Step) (rest : Text),
      f (step.operator.symbol :: rest) = step.operator.symbol :: f rest)
    (front : ∀ {rest more : Text} (step : Step), f rest = step.text ++ more →
      ∃ later, rest = step.text ++ later) (t : Text) :
    behindName (f t) = { behindName t with text := f (behindName t).text } := by
  have plus (rest : Text) : f ('+' :: rest) = '+' :: f rest := sign .increment rest
  have minus (rest : Text) : f ('-' :: rest) = '-' :: f rest := sign .decrement rest
  fun_cases behindName t with
  | case1 rest =>
    simp only [plus, minus]
    rfl
  | case2 rest single =>
    simp only [plus]
    refine behindName.eq_2 _ fun more same => ?_
    obtain ⟨later, split⟩ := front .decrement same
    exact single later split
  | case3 rest =>
    simp only [minus]
    rfl
  | case4 t both increment decrement =>
    refine behindName.eq_4 _ (fun more same => ?_) (fun more same => ?_) fun more same => ?_
    · obtain ⟨later, split⟩ := front .increment same
      exact increment later split
    · obtain ⟨later, split⟩ := front .increment same
      exact increment later split
    · obtain ⟨later, split⟩ := front .decrement same
      exact decrement later split

theorem behindName_cases (t : Text) :
    ∃ steps rest, t = steps.flatMap Step.text ++ rest ∧ behindName t = ⟨rest, steps⟩ ∧
      steps.Sublist [.increment, .decrement] := by
  rw [behindName.eq_def]
  split
  · next rest => exact ⟨[.increment, .decrement], rest, rfl, rfl, by simp⟩
  · next rest other => exact ⟨[.increment], rest, rfl, rfl, by simp⟩
  · next rest => exact ⟨[.decrement], rest, rfl, rfl, by simp⟩
  · exact ⟨[], t, rfl, rfl, by simp⟩

end Unread

namespace Text

theorem items_sign_cons {rest : Text} (apart : rest.head? ≠ some '-') :
    items ('-' :: rest) = .ok (.operator .subtract) :: items rest := by
  have single : StopsAt (· == Step.decrement.operator.symbol) rest := by
    intro c first
    rw [beq_eq_false_iff_ne]
    rintro rfl
    exact apart first
  have read : Unread.next ⟨'-' :: rest, []⟩ = (.ok (.operator .subtract), ⟨rest, []⟩) :=
    Unread.next_of_lexeme (.sign .decrement single)
  rw [items, Unread.items_of_item read (by simp)]
  rfl

theorem items_digits {digits : Text} (some : digits ≠ []) (only : ∀ c ∈ digits, c.isDigit = true) :
    items digits = [.ok (.number digits)] := by
  have lexeme : Lexeme (digits ++ []) (.ok (.number digits)) ⟨[], []⟩ :=
    .number some only (stopsAt_nil _)
  have read : Unread.next ⟨digits, []⟩ = (.ok (.number digits), ⟨[], []⟩) := by
    simpa using Unread.next_of_lexeme lexeme
  have ended : Unread.items ⟨[], []⟩ = [] := Unread.items_of_finish rfl
  rw [items, Unread.items_of_item read (by simp), ended]

end Text

end LineCalculator
