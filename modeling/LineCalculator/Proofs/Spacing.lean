import LineCalculator.Proofs.Lookahead
import LineCalculator.Proofs.Printing

/-! Gaps in a text. It does not count how long a gap is and what it is made of, but it does count that
it is there: without it, the words on its two sides would grow together.

The main statement is that the items of a text are those of its words, one word after the other. -/

namespace LineCalculator

namespace Text

/-- A text that goes on with nothing that can be put to a token before it. -/
def Apart (rest : Text) : Prop :=
  rest.StopsAt fun c => Name.isPart c || c == '+' || c == '-'

def words (t : Text) : List Text :=
  (t.splitOnP isGap).filter (· ≠ [])

/-- The text with one space for all the gaps between two words, and none at its ends. -/
def singleSpaced (t : Text) : Text :=
  [' '].intercalate t.words

theorem StopsAt.append {kind : Char → Bool} {front rest : Text} (here : front.StopsAt kind)
    (there : rest.StopsAt kind) : (front ++ rest).StopsAt kind := by
  cases front with
  | nil => exact there
  | cons c front => exact stopsAt_cons (here c rfl) _

theorem apart_of_gap {c : Char} (gap : isGap c = true) (rest : Text) : Apart (c :: rest) := by
  refine stopsAt_cons ?_ rest
  simp only [isGap, Bool.or_eq_true, beq_iff_eq] at gap
  rcases gap with (((rfl | rfl) | rfl) | rfl) | rfl <;> rfl

namespace Apart

variable {rest : Text} (apart : rest.Apart)

include apart

theorem isPart : rest.StopsAt Name.isPart :=
  apart.mono fun c part => by simp [part]

theorem isDigit : rest.StopsAt Char.isDigit :=
  apart.isPart.mono fun _ => Name.isPart_of_isDigit

theorem symbol (step : Step) : rest.StopsAt (· == step.operator.symbol) :=
  apart.mono fun c same => by cases step <;> simp_all [Step.operator, Operator.symbol]

end Apart

theorem Apart.exists_of_step {after rest more : Text} (apart : rest.Apart) (step : Step)
    (same : after ++ rest = step.text ++ more) : ∃ later, after = step.text ++ later := by
  rcases List.append_eq_append_iff.1 same with ⟨missing, split, behind⟩ | ⟨later, split, -⟩
  · cases missing with
    | nil => exact ⟨[], by simpa using split.symm⟩
    | cons c missing =>
      have member : c ∈ step.text := by simp [split]
      have known : c = step.operator.symbol := by simpa [Step.text] using member
      have other := apart.symbol step c (by simp [behind])
      simp [known] at other
  · exact ⟨later, split⟩

end Text

namespace Unread

def followedBy (unread : Unread) (rest : Text) : Unread :=
  { unread with text := unread.text ++ rest }

theorem behindName_append_of_apart {rest : Text} (apart : rest.Apart) (after : Text) :
    behindName (after ++ rest) = (behindName after).followedBy rest :=
  behindName_of_keeps (f := (· ++ rest)) (fun _ _ => rfl) apart.exists_of_step after

end Unread

theorem Lexeme.followedBy {text rest : Text} {item : Item} {behind : Unread}
    (lexeme : Lexeme text item behind) (apart : rest.Apart) :
    Lexeme (text ++ rest) item (behind.followedBy rest) := by
  cases lexeme with
  | step step after => exact .step step (after ++ rest)
  | @sign step after single => exact .sign step (single.append (apart.symbol step))
  | symbol known after => exact .symbol known (after ++ rest)
  | number some only ends =>
    rw [List.append_assoc]
    exact .number some only (ends.append apart.isDigit)
  | name valid ends =>
    rw [List.append_assoc, ← Unread.behindName_append_of_apart apart]
    exact .name valid (ends.append apart.isPart)
  | badName whole last ends =>
    rw [List.append_assoc]
    exact .badName whole last (ends.append apart.isPart)
  | unexpected gap sign digit letter symbol after =>
    exact .unexpected gap sign digit letter symbol (after ++ rest)

namespace Unread

theorem items_congr {left right : Unread} (same : left.next = right.next) :
    left.items = right.items := by
  cases read : right.next with
  | mk item rest =>
    rw [read] at same
    by_cases last : item = .ok .finish
    · rw [items_of_finish (last ▸ same), items_of_finish (last ▸ read)]
    · rw [items_of_item same last, items_of_item read last]

theorem items_gaps_append {gaps : Text} (skipped : gaps.AllGaps) (rest : Text) :
    items ⟨gaps ++ rest, []⟩ = items ⟨rest, []⟩ := by
  refine items_congr ?_
  rw [next, next, List.dropWhile_append_of_pos skipped]

theorem Reads.followedBy {unread behind : Unread} {item : Item} {rest : Text}
    (reads : Reads unread item behind) (inside : item ≠ .ok .finish) (apart : rest.Apart) :
    Reads (unread.followedBy rest) item (behind.followedBy rest) := by
  cases reads with
  | waiting text step later => exact .waiting (text ++ rest) step later
  | @lexeme gaps text _ _ skipped here =>
    have split : Unread.followedBy ⟨gaps ++ text, []⟩ rest = ⟨gaps ++ (text ++ rest), []⟩ := by
      rw [Unread.followedBy, List.append_assoc]
    rw [split]
    exact .lexeme skipped (here.followedBy apart)
  | finish skipped => exact absurd rfl inside

theorem items_followedBy {rest : Text} (apart : rest.Apart) (unread : Unread) :
    (unread.followedBy rest).items = unread.items ++ Text.items rest := by
  fun_induction items unread with
  | case1 unread last read =>
    cases reads_iff.2 read with
    | lexeme skipped here => exact absurd rfl here.ne_finish
    | finish skipped => exact items_gaps_append skipped rest
  | case2 unread token later read inside ih =>
    have within : (.ok token : Item) ≠ .ok .finish := by simpa using inside
    have reads := (reads_iff.2 read).followedBy within apart
    rw [items_of_item (reads_iff.1 reads) within, ih, List.cons_append]
  | case3 unread fault later read ih =>
    have reads := (reads_iff.2 read).followedBy (by simp) apart
    rw [items_of_item (reads_iff.1 reads) (by simp), ih, List.cons_append]

end Unread

namespace Text

theorem items_append {rest : Text} (apart : rest.Apart) (front : Text) :
    items (front ++ rest) = front.items ++ rest.items :=
  Unread.items_followedBy apart ⟨front, []⟩

theorem items_gap_cons {c : Char} (gap : isGap c = true) (rest : Text) :
    items (c :: rest) = rest.items := by
  have skipped : AllGaps [c] := by simpa [AllGaps] using gap
  exact Unread.items_gaps_append skipped rest

theorem words_append_gap {c : Char} (gap : isGap c = true) (front rest : Text) :
    words (front ++ c :: rest) = front.words ++ rest.words := by
  rw [words, List.splitOnP_append_cons front rest gap, List.filter_append]
  rfl

structure Unbroken (word : Text) : Prop where
  some : word ≠ []
  gapless : ∀ c ∈ word, isGap c = false

theorem Unbroken.words_eq {word : Text} (unbroken : word.Unbroken) : word.words = [word] := by
  rw [words, List.splitOnP_eq_singleton unbroken.gapless]
  simp [unbroken.some]

/-- Induction along the gaps of a text, cutting it at any of them. -/
theorem gap_induction {motive : Text → Prop} (nil : motive [])
    (word : ∀ word : Text, word.Unbroken → motive word)
    (cut : ∀ front c rest, isGap c = true → motive front → motive rest →
      motive (front ++ c :: rest)) (t : Text) : motive t := by
  induction length : t.length using Nat.strongRecOn generalizing t with
  | ind n ih =>
    by_cases broken : ∃ c ∈ t, isGap c = true
    · obtain ⟨c, here, gap⟩ := broken
      obtain ⟨front, rest, rfl⟩ := List.append_of_mem here
      rw [List.length_append, List.length_cons] at length
      exact cut front c rest gap (ih front.length (by omega) front rfl)
        (ih rest.length (by omega) rest rfl)
    · by_cases some : t = []
      · exact some ▸ nil
      · exact word t ⟨some, fun c here => Bool.eq_false_iff.2 fun gap => broken ⟨c, here, gap⟩⟩

theorem items_eq_flatMap_words (source : Text) : source.items = source.words.flatMap items := by
  induction source using gap_induction with
  | nil => exact Unread.items_of_finish rfl
  | word word unbroken => rw [unbroken.words_eq, List.flatMap_singleton]
  | cut front c rest gap ihFront ihRest =>
    rw [items_append (apart_of_gap gap rest), items_gap_cons gap, words_append_gap gap,
      List.flatMap_append, ← ihFront, ← ihRest]

theorem unbroken_of_mem_words {t word : Text} (here : word ∈ t.words) : word.Unbroken := by
  induction t using gap_induction with
  | nil => cases here
  | word t unbroken => exact List.mem_singleton.1 (unbroken.words_eq ▸ here) ▸ unbroken
  | cut front c rest gap ihFront ihRest =>
    rw [words_append_gap gap, List.mem_append] at here
    exact here.elim ihFront ihRest

theorem words_intercalate {parts : List Text} (unbroken : ∀ word ∈ parts, word.Unbroken) :
    words ([' '].intercalate parts) = parts := by
  induction parts with
  | nil => rfl
  | cons word parts ih =>
    obtain ⟨here, later⟩ := List.forall_mem_cons.1 unbroken
    cases parts with
    | nil => rw [List.intercalate_singleton, here.words_eq]
    | cons second parts =>
      have split : [' '].intercalate (word :: second :: parts) =
          word ++ ' ' :: [' '].intercalate (second :: parts) := by
        simp
      rw [split, words_append_gap rfl, here.words_eq, ih later]
      rfl

theorem words_singleSpaced (t : Text) : t.singleSpaced.words = t.words :=
  words_intercalate fun _ => unbroken_of_mem_words

theorem items_singleSpaced (source : Text) : source.singleSpaced.items = source.items := by
  rw [items_eq_flatMap_words, words_singleSpaced, ← items_eq_flatMap_words]

end Text

namespace Calculator

theorem sameOutcome_of_items {source other : Text} (same : source.items = other.items)
    (calculator : Calculator) : calculator.SameOutcome source other := by
  intro again equal
  have reads := evaluateExpression_eq_reading source calculator
  rw [Text.reading, same, ← Text.reading, ← equal, evaluateExpression_eq_reading] at reads
  exact ⟨(congrArg Prod.fst reads).symm, (congrArg Prod.snd reads).symm⟩

/-- Texts that differ in the length and the characters of their gaps only, or in the gaps at their
ends, have the same tokens and faults in the same order, and evaluating them has the same outcome.
Where the gaps are does count: moving one can change the tokens and the outcome. -/
theorem evaluateExpression_spacing :
    (∀ source other : Text, source.singleSpaced = other.singleSpaced →
      source.items = other.items ∧ ∀ calculator : Calculator, calculator.SameOutcome source other) ∧
    ∃ source other : Text, source.withoutGaps = other.withoutGaps ∧ source.items ≠ other.items ∧
      ¬new.SameOutcome source other := by
  refine ⟨fun source other same => ?_, "i++".toList, "i ++".toList, rfl, ?_, fun outcome => ?_⟩
  · have items : source.items = other.items := by
      rw [← source.items_singleSpaced, same, other.items_singleSpaced]
    exact ⟨items, sameOutcome_of_items items⟩
  · intro same
    rw [Text.items_eq, Text.items_eq] at same
    cases same
  · have touching := evaluateExpression_eq_reading "i++".toList new
    have apart := evaluateExpression_eq_reading "i ++".toList new
    rw [Text.reading, Text.items_eq] at touching apart
    have stepped : (evaluateExpression "i++".toList new).2.values.entries = [(['i'], 1)] :=
      congrArg (fun result => result.2.entries) touching.symm
    have kept : (evaluateExpression "i ++".toList new).2.values.entries = [] :=
      congrArg (fun result => result.2.entries) apart.symm
    rw [(outcome new rfl).2, kept] at stepped
    cases stepped

theorem evaluateExpression_spacing_mixed :
    let source : Text := "\ti++ +\r\n++i\x0c@ b_ \n".toList
    let other : Text := "i++ + ++i @ b_".toList
    source.singleSpaced = other.singleSpaced ∧ source.items = other.items ∧
      source.items.length = 7 ∧ new.SameOutcome source other := by
  intro source other
  have same : source.singleSpaced = other.singleSpaced := rfl
  obtain ⟨items, outcome⟩ := evaluateExpression_spacing.1 source other same
  exact ⟨same, items, by rw [Text.items_eq]; rfl, outcome new⟩

end Calculator

end LineCalculator
