import LineCalculator.Proofs.Spelling

/-! Other names for the variables of a text. A renaming takes valid names to valid names. It replaces
the words of a text that are names, and everything else stays: gaps, numbers that stand next to a
word, steps that touch one, and words that end in an underscore and so are no names.

The main statement is that the items of the renamed text are those of the text with the names
replaced. It holds because a word begins with a letter and goes on as far as it can, so nothing that
is read ends at another place. -/

namespace LineCalculator

/-- A map of the valid names to valid names that keeps different names apart. -/
structure Renaming where
  image : Text → Text
  isValid_image : ∀ {name}, Name.isValid name = true → Name.isValid (image name) = true
  injective : ∀ {name other}, Name.isValid name = true → Name.isValid other = true →
    image name = image other → name = other

def Token.mapName (rename : Text → Text) : Token → Token
  | name text => name (rename text)
  | token => token

def Item.mapName (rename : Text → Text) : Item → Item :=
  Except.map (Token.mapName rename)

namespace Renaming

variable (rename : Renaming)

def word (w : Text) : Text :=
  if Name.isValid w then rename.image w else w

/-- Replaces the words of a text. Outside of a word, every letter begins one. -/
def text : Text → Text
  | [] => []
  | c :: rest =>
    if Name.isStart c then
      rename.word (c :: rest.takeWhile Name.isPart) ++ text (rest.dropWhile Name.isPart)
    else
      c :: text rest
termination_by t => t.length
decreasing_by
  · exact Nat.lt_succ_of_le (Unread.length_dropWhile_le Name.isPart rest)
  · exact Nat.lt_succ_self rest.length

def unread (unread : Unread) : Unread :=
  { unread with text := rename.text unread.text }

theorem word_of_isValid {name : Text} (valid : Name.isValid name = true) :
    rename.word name = rename.image name :=
  if_pos valid

theorem word_of_last {word : Text} (last : word.getLast? = some '_') :
    rename.word word = word := by
  have none : Name.isValid word ≠ true := fun valid => (Name.isValid_iff.1 valid).2 last
  exact if_neg none

theorem isWord_word {word : Text} (whole : Name.isWord word = true) :
    Name.isWord (rename.word word) = true := by
  by_cases valid : Name.isValid word = true
  · rw [rename.word_of_isValid valid]
    exact (Name.isValid_iff.1 (rename.isValid_image valid)).1
  · rw [Renaming.word, if_neg valid]
    exact whole

@[simp] theorem text_nil : rename.text [] = [] := by
  rw [text]

theorem text_cons_of_other {c : Char} (other : Name.isStart c = false) (rest : Text) :
    rename.text (c :: rest) = c :: rename.text rest := by
  rw [text, if_neg (by simp [other])]

theorem text_append_of_other {front : Text} (others : ∀ c ∈ front, Name.isStart c = false)
    (rest : Text) : rename.text (front ++ rest) = front ++ rename.text rest := by
  induction front with
  | nil => rfl
  | cons c front ih =>
    obtain ⟨here, later⟩ := List.forall_mem_cons.1 others
    rw [List.cons_append, text_cons_of_other rename here, ih later, List.cons_append]

theorem text_word_append {word rest : Text} (whole : Name.isWord word = true)
    (ends : rest.StopsAt Name.isPart) :
    rename.text (word ++ rest) = rename.word word ++ rename.text rest := by
  obtain ⟨first, parts, rfl, start, only⟩ := Name.exists_of_isWord whole
  rw [List.cons_append, text, if_pos start, Text.takeWhile_of_stopsAt only ends,
    Text.dropWhile_of_stopsAt only ends]

theorem text_cases (t : Text) :
    t = [] ∨ (∃ c rest, t = c :: rest ∧ Name.isStart c = false ∧
        rename.text t = c :: rename.text rest) ∨
      ∃ c rest first more, t = c :: rest ∧ Name.isStart c = true ∧
        rename.text t = first :: more ∧ Name.isStart first = true := by
  cases t with
  | nil => exact .inl rfl
  | cons c rest =>
    cases start : Name.isStart c with
    | false => exact .inr (.inl ⟨c, rest, rfl, start, rename.text_cons_of_other start rest⟩)
    | true =>
      have whole : Name.isWord (c :: rest.takeWhile Name.isPart) = true := by
        simp [Name.isWord, start, List.all_takeWhile]
      -- What replaces a word is a word, and so it begins with a letter again.
      obtain ⟨first, parts, word, letter, -⟩ :=
        Name.exists_of_isWord (rename.isWord_word whole)
      refine .inr (.inr ⟨c, rest, first, parts ++ rename.text (rest.dropWhile Name.isPart), rfl,
        start, ?_, letter⟩)
      rw [text, if_pos start, word, List.cons_append]

theorem exists_of_text_eq_cons {t more : Text} {c : Char} (other : Name.isStart c = false)
    (same : rename.text t = c :: more) : ∃ rest, t = c :: rest ∧ more = rename.text rest := by
  rcases rename.text_cases t with rfl | ⟨d, rest, rfl, -, split⟩ | ⟨d, rest, first, tail, rfl, -,
    split, letter⟩
  · rw [text_nil] at same
    cases same
  · cases split.symm.trans same
    exact ⟨rest, rfl, rfl⟩
  · cases split.symm.trans same
    rw [other] at letter
    cases letter

theorem isStart_symbol (step : Step) : Name.isStart step.operator.symbol = false := by
  cases step <;> rfl

theorem exists_of_text_eq_step {t more : Text} (step : Step)
    (same : rename.text t = step.text ++ more) : ∃ rest, t = step.text ++ rest := by
  have other := isStart_symbol step
  obtain ⟨behind, rfl, again⟩ := rename.exists_of_text_eq_cons other same
  obtain ⟨rest, rfl, -⟩ := rename.exists_of_text_eq_cons other again.symm
  exact ⟨rest, rfl⟩

theorem stopsAt_text {kind : Char → Bool}
    (alike : ∀ c d, Name.isStart c = true → Name.isStart d = true → kind c = kind d) {t : Text}
    (ends : t.StopsAt kind) : (rename.text t).StopsAt kind := by
  rcases rename.text_cases t with rfl | ⟨c, rest, rfl, -, split⟩ | ⟨c, rest, first, more, rfl,
    start, split, letter⟩
  · rwa [text_nil]
  · rw [split]
    exact Text.stopsAt_cons (ends c rfl) _
  · rw [split]
    exact Text.stopsAt_cons ((alike first c letter start).trans (ends c rfl)) _

theorem stopsAt_isPart {t : Text} (ends : t.StopsAt Name.isPart) :
    (rename.text t).StopsAt Name.isPart :=
  rename.stopsAt_text (fun _ _ one other =>
    (Name.isPart_of_isStart one).trans (Name.isPart_of_isStart other).symm) ends

theorem stopsAt_isDigit {t : Text} (ends : t.StopsAt Char.isDigit) :
    (rename.text t).StopsAt Char.isDigit :=
  rename.stopsAt_text (fun _ _ one other =>
    (Name.isDigit_of_isStart one).trans (Name.isDigit_of_isStart other).symm) ends

theorem stopsAt_symbol (step : Step) {t : Text} (ends : t.StopsAt (· == step.operator.symbol)) :
    (rename.text t).StopsAt (· == step.operator.symbol) := by
  have other {c : Char} (start : Name.isStart c = true) : (c == step.operator.symbol) = false := by
    rw [beq_eq_false_iff_ne]
    rintro rfl
    cases step <;> cases start
  exact rename.stopsAt_text (fun _ _ one two => (other one).trans (other two).symm) ends

theorem behindName_text (t : Text) :
    Unread.behindName (rename.text t) = rename.unread (Unread.behindName t) :=
  Unread.behindName_of_keeps (fun step => rename.text_cons_of_other (isStart_symbol step))
    rename.exists_of_text_eq_step t

end Renaming

theorem Lexeme.renamed {text : Text} {item : Item} {behind : Unread}
    (lexeme : Lexeme text item behind) (rename : Renaming) :
    Lexeme (rename.text text) (item.mapName rename.image) (rename.unread behind) := by
  cases lexeme with
  | step step rest =>
    have others : ∀ c ∈ step.text, Name.isStart c = false := by
      simp [Step.text, Renaming.isStart_symbol]
    rw [rename.text_append_of_other others]
    exact .step step _
  | @sign step rest single =>
    rw [rename.text_cons_of_other (Renaming.isStart_symbol step)]
    exact .sign step (rename.stopsAt_symbol step single)
  | @symbol c token known rest =>
    have other : Name.isStart c = false ∧ token.mapName rename.image = token := by
      rcases Token.ofSymbol?_cases known with ⟨rfl, rfl⟩ | ⟨rfl, rfl⟩ | ⟨rfl, rfl⟩ <;>
        exact ⟨rfl, rfl⟩
    rw [rename.text_cons_of_other other.1, Item.mapName, Except.map, other.2]
    exact .symbol known _
  | @number digits rest some only ends =>
    have others : ∀ c ∈ digits, Name.isStart c = false := fun c here => by
      refine Bool.eq_false_iff.2 fun start => ?_
      exact Bool.eq_false_iff.1 (Name.isDigit_of_isStart start) (only c here)
    rw [rename.text_append_of_other others]
    exact .number some only (rename.stopsAt_isDigit ends)
  | @name word rest valid ends =>
    rw [rename.text_word_append (Name.isValid_iff.1 valid).1 ends,
      rename.word_of_isValid valid, ← rename.behindName_text]
    exact .name (rename.isValid_image valid) (rename.stopsAt_isPart ends)
  | @badName word rest whole last ends =>
    rw [rename.text_word_append whole ends, rename.word_of_last last]
    exact .badName whole last (rename.stopsAt_isPart ends)
  | @unexpected c gap sign digit letter symbol rest =>
    rw [rename.text_cons_of_other letter]
    exact .unexpected gap sign digit letter symbol _

namespace Unread

theorem Reads.renamed {unread behind : Unread} {item : Item} (reads : Reads unread item behind)
    (rename : Renaming) :
    Reads (rename.unread unread) (item.mapName rename.image) (rename.unread behind) := by
  have others {gaps : Text} (skipped : gaps.AllGaps) : ∀ c ∈ gaps, Name.isStart c = false := by
    intro c here
    refine Bool.eq_false_iff.2 fun start => ?_
    exact Bool.eq_false_iff.1 (Name.isGap_of_isPart (Name.isPart_of_isStart start)) (skipped c here)
  cases reads with
  | waiting text step later => exact .waiting (rename.text text) step later
  | @lexeme gaps text _ _ skipped here =>
    rw [Renaming.unread, rename.text_append_of_other (others skipped)]
    exact .lexeme skipped (here.renamed rename)
  | @finish gaps skipped =>
    have kept : rename.text gaps = gaps := by
      simpa using rename.text_append_of_other (others skipped) []
    rw [Renaming.unread, Renaming.unread, kept, rename.text_nil]
    exact .finish skipped

theorem items_renamed (unread : Unread) (rename : Renaming) :
    (rename.unread unread).items = unread.items.map (Item.mapName rename.image) := by
  fun_induction items unread with
  | case1 unread last read => exact items_of_finish (reads_iff.1 ((reads_iff.2 read).renamed rename))
  | case2 unread token later read inside ih =>
    have within : Item.mapName rename.image (.ok token) ≠ .ok .finish := by
      cases token <;> simp_all [Item.mapName, Except.map, Token.mapName]
    rw [items_of_item (reads_iff.1 ((reads_iff.2 read).renamed rename)) within, ih, List.map_cons]
  | case3 unread fault later read ih =>
    rw [items_of_item (reads_iff.1 ((reads_iff.2 read).renamed rename)) (by simp [Item.mapName,
      Except.map]), ih, List.map_cons]

end Unread

theorem Renaming.items_text (rename : Renaming) (source : Text) :
    (rename.text source).items = source.items.map (Item.mapName rename.image) :=
  Unread.items_renamed ⟨source, []⟩ rename

end LineCalculator
