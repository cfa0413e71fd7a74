import LineCalculator.Proofs.Lexeme

/-! Reading covers a text. Every character but the gaps belongs to one item, and items come in the
order of their characters. Moving a cursor delivers each of them once: a token when the next one has
been read, a fault at once, in front of the token that is still current. -/

namespace LineCalculator

def ReadingFault.part : ReadingFault → Text
  | invalidName name => name
  | unexpectedCharacter character => [character]
  | unexpectedToken token => token
  | literalTooLarge digits => digits
  | malformed _ => []

namespace Item

def text : Item → Text
  | .ok token => token.text
  | .error fault => fault.part

def token? : Item → Option Token
  | .ok token => some token
  | .error _ => none

def fault? : Item → Option ReadingFault
  | .ok _ => none
  | .error fault => some fault

def tokens (items : List Item) : List Token :=
  items.filterMap token?

def faults (items : List Item) : List ReadingFault :=
  items.filterMap fault?

@[simp] theorem tokens_ok (token : Token) (later : List Item) :
    tokens (.ok token :: later) = token :: tokens later := rfl

@[simp] theorem tokens_error (fault : ReadingFault) (later : List Item) :
    tokens (.error fault :: later) = tokens later := rfl

@[simp] theorem faults_ok (token : Token) (later : List Item) :
    faults (.ok token :: later) = faults later := rfl

@[simp] theorem faults_error (fault : ReadingFault) (later : List Item) :
    faults (.error fault :: later) = fault :: faults later := rfl

theorem mem_tokens {token : Token} {items : List Item} :
    token ∈ tokens items ↔ .ok token ∈ items := by
  induction items with
  | nil => simp [tokens]
  | cons item later ih => cases item <;> simp [ih]

end Item

def Text.withoutGaps (t : Text) : Text :=
  t.filter fun c => !isGap c

namespace Text

@[simp] theorem withoutGaps_append (s t : Text) :
    withoutGaps (s ++ t) = withoutGaps s ++ withoutGaps t :=
  List.filter_append ..

theorem withoutGaps_of_allGaps {gaps : Text} (skipped : gaps.AllGaps) : withoutGaps gaps = [] := by
  simpa [withoutGaps, AllGaps] using skipped

theorem withoutGaps_of_parts {parts : Text} (only : ∀ c ∈ parts, Name.isPart c = true) :
    withoutGaps parts = parts := by
  simp only [withoutGaps, List.filter_eq_self, Bool.not_eq_true']
  exact fun c here => Name.isGap_of_isPart (only c here)

theorem withoutGaps_cons {c : Char} (shown : isGap c = false) (rest : Text) :
    withoutGaps (c :: rest) = c :: withoutGaps rest := by
  simp [withoutGaps, shown]

@[simp] theorem withoutGaps_step (step : Step) : withoutGaps step.text = step.text := by
  cases step <;> rfl

end Text

namespace Unread

def shown (unread : Unread) : Text :=
  unread.waiting.flatMap Step.text ++ unread.text.withoutGaps

theorem shown_of_text (t : Text) : shown ⟨t, []⟩ = t.withoutGaps := rfl

theorem shown_behindName (t : Text) : (behindName t).shown = t.withoutGaps := by
  obtain ⟨steps, rest, rfl, same, -⟩ := behindName_cases t
  have kept (steps : List Step) :
      Text.withoutGaps (steps.flatMap Step.text) = steps.flatMap Step.text := by
    induction steps with
    | nil => rfl
    | cons step later ih =>
      rw [List.flatMap_cons, Text.withoutGaps_append, ih, Text.withoutGaps_step]
  rw [same, shown, Text.withoutGaps_append, kept]

end Unread

theorem Lexeme.withoutGaps_eq {text : Text} {item : Item} {behind : Unread}
    (lexeme : Lexeme text item behind) : text.withoutGaps = Item.text item ++ behind.shown := by
  cases lexeme with
  | step step rest => rw [Text.withoutGaps_append, Text.withoutGaps_step]; rfl
  | sign step single => exact Text.withoutGaps_cons (by cases step <;> rfl) _
  | @symbol c token known rest =>
    rcases Token.ofSymbol?_cases known with ⟨rfl, rfl⟩ | ⟨rfl, rfl⟩ | ⟨rfl, rfl⟩ <;>
      exact Text.withoutGaps_cons rfl rest
  | @number digits rest some only ends =>
    have parts : ∀ c ∈ digits, Name.isPart c = true :=
      fun c here => Name.isPart_of_isDigit (only c here)
    rw [Text.withoutGaps_append, Text.withoutGaps_of_parts parts]
    rfl
  | @name word rest valid ends =>
    rw [Text.withoutGaps_append, Text.withoutGaps_of_parts fun c => Name.isPart_of_mem valid,
      Unread.shown_behindName]
    rfl
  | @badName word rest whole last ends =>
    rw [Text.withoutGaps_append, Text.withoutGaps_of_parts (Name.isPart_of_mem_word whole)]
    rfl
  | unexpected gap sign digit letter symbol rest => exact Text.withoutGaps_cons gap rest

namespace Unread

theorem Reads.shown_eq {unread behind : Unread} {item : Item} (reads : Reads unread item behind) :
    unread.shown = Item.text item ++ behind.shown := by
  cases reads with
  | waiting text step later => exact List.append_assoc ..
  | lexeme skipped here =>
    rw [shown_of_text, Text.withoutGaps_append, Text.withoutGaps_of_allGaps skipped,
      here.withoutGaps_eq]
    rfl
  | finish skipped => rw [shown_of_text, Text.withoutGaps_of_allGaps skipped]; rfl

theorem Reads.eq_of_finish {unread behind : Unread} (reads : Reads unread (.ok .finish) behind) :
    behind = ⟨[], []⟩ := by
  cases reads with
  | lexeme skipped here => exact absurd rfl here.ne_finish
  | finish skipped => rfl

theorem flatMap_text_items (unread : Unread) : unread.items.flatMap Item.text = unread.shown := by
  fun_induction items unread with
  | case1 unread rest read =>
    have reads := reads_iff.2 read
    rw [reads.shown_eq, reads.eq_of_finish]
    rfl
  | case2 unread token rest read inside ih =>
    rw [List.flatMap_cons, ih, (reads_iff.2 read).shown_eq]
  | case3 unread fault rest read ih =>
    rw [List.flatMap_cons, ih, (reads_iff.2 read).shown_eq]

theorem finish_notMem_items (unread : Unread) : .ok .finish ∉ unread.items := by
  fun_induction items unread with
  | case1 unread rest read => simp
  | case2 unread token rest read inside ih => simp [Ne.symm inside, ih]
  | case3 unread fault rest read ih => simp [ih]

end Unread

namespace Cursor

def moves : Nat → Cursor → List Item × Cursor
  | 0, cursor => ([], cursor)
  | count + 1, cursor =>
    let later := moves count cursor.advance.2
    (cursor.advance.1 :: later.1, later.2)

def ended : Cursor :=
  ⟨.finish, ⟨[], []⟩⟩

/-- The results of moving through some items when a token is current. Each token comes when the next
one is read, so the faults between the two come before it. -/
def delivered (current : Token) : List Item → List Item
  | [] => [.ok current]
  | .ok token :: later => .ok current :: delivered token later
  | .error fault :: later => .error fault :: delivered current later

theorem tokens_delivered (current : Token) (items : List Item) :
    Item.tokens (delivered current items) = current :: Item.tokens items := by
  induction items generalizing current with
  | nil => rfl
  | cons item later ih => cases item <;> simp [delivered, ih]

theorem faults_delivered (current : Token) (items : List Item) :
    Item.faults (delivered current items) = Item.faults items := by
  induction items generalizing current with
  | nil => rfl
  | cons item later ih => cases item <;> simp [delivered, ih]

theorem moves_add (first second : Nat) (cursor : Cursor) :
    (cursor.moves (first + second)).1 =
      (cursor.moves first).1 ++ ((cursor.moves first).2.moves second).1 := by
  induction first generalizing cursor with
  | zero => simp [moves]
  | succ first ih => simp [Nat.succ_add, moves, ih]

theorem moves_ended (count : Nat) :
    ended.moves count = (List.replicate count (.ok .finish), ended) := by
  induction count with
  | zero => rfl
  | succ count ih =>
    have stays : ended.advance = (.ok .finish, ended) := rfl
    rw [moves, stays, ih]
    rfl

theorem advance_of_ok {unread rest : Unread} {token : Token} (current : Token)
    (read : unread.next = (.ok token, rest)) :
    advance ⟨current, unread⟩ = (.ok current, ⟨token, rest⟩) := by
  rw [advance, read]

theorem advance_of_error {unread rest : Unread} {fault : ReadingFault} (current : Token)
    (read : unread.next = (.error fault, rest)) :
    advance ⟨current, unread⟩ = (.error fault, ⟨current, rest⟩) := by
  rw [advance, read]

theorem moves_unread (current : Token) (unread : Unread) :
    moves (unread.items.length + 1) ⟨current, unread⟩ =
      (delivered current unread.items, ended) := by
  fun_induction Unread.items unread generalizing current with
  | case1 unread rest read =>
    rw [List.length_nil, moves, advance_of_ok current read, (Unread.reads_iff.2 read).eq_of_finish]
    rfl
  | case2 unread token rest read inside ih =>
    rw [List.length_cons, moves, advance_of_ok current read, ih, delivered]
  | case3 unread fault rest read ih =>
    rw [List.length_cons, moves, advance_of_error current read, ih, delivered]

theorem moves_of_start {source : Text} {cursor : Cursor} (started : start source = .ok cursor) :
    Item.tokens (cursor.moves source.items.length).1 = Item.tokens source.items ∧
      Item.faults (cursor.moves source.items.length).1 = Item.faults source.items ∧
      (cursor.moves source.items.length).2 = ended := by
  rw [start] at started
  split at started
  · next token unread read =>
    cases started
    -- A text of gaps only has no items, and the end is current from the start.
    by_cases last : token = .finish
    · subst last
      have items : source.items = [] := Unread.items_of_finish read
      rw [items, (Unread.reads_iff.2 read).eq_of_finish]
      exact ⟨rfl, rfl, rfl⟩
    · have items : source.items = .ok token :: unread.items :=
        Unread.items_of_item read (by simpa using last)
      rw [items, List.length_cons, moves_unread, tokens_delivered, faults_delivered]
      exact ⟨rfl, rfl, rfl⟩
  · cases started

theorem start_eq_error_iff {source : Text} {fault : ReadingFault} :
    start source = .error fault ↔ source.items.head? = some (.error fault) := by
  rcases start_cases source with ⟨found, rest, items, failed⟩ | ⟨cursor, started, items⟩
  · simp [items, failed]
  · rw [← items, started, Cursor.items]
    split <;> simp

/-- The texts of the items are the text without its gaps. Moving on from the first token delivers
every token once and every fault once, in order, with as many moves as there are items. Every
further move finds the end. A move that fails keeps the current token. -/
theorem moves_cover (source : Text) :
    source.items.flatMap Item.text = source.withoutGaps ∧
      (∀ fault, start source = .error fault ↔ source.items.head? = some (.error fault)) ∧
      ∀ cursor, start source = .ok cursor →
        let count := source.items.length
        let results := (cursor.moves count).1
        Item.tokens results = Item.tokens source.items ∧
          Item.faults results = Item.faults source.items ∧ .ok .finish ∉ results ∧
          (∀ more, (cursor.moves (count + more)).1 =
            results ++ List.replicate more (.ok .finish)) ∧
          ∀ earlier fault, (cursor.moves earlier).2.advance.1 = .error fault →
            (cursor.moves earlier).2.advance.2.current = (cursor.moves earlier).2.current := by
  refine ⟨Unread.flatMap_text_items _, fun fault => start_eq_error_iff, ?_⟩
  intro cursor started count results
  obtain ⟨tokens, faults, last⟩ := moves_of_start started
  refine ⟨tokens, faults, fun early => ?_, fun more => ?_, fun earlier fault => ?_⟩
  · have token : .finish ∈ Item.tokens results := Item.mem_tokens.2 early
    rw [tokens] at token
    exact Unread.finish_notMem_items _ (Item.mem_tokens.1 token)
  · rw [moves_add, last, moves_ended]
  · exact current_advance_of_error

theorem moves_cover_across_faults :
    let source : Text := "i++@ b_--".toList
    ∃ cursor, start source = .ok cursor ∧
      Item.tokens (cursor.moves 5).1 =
        [.name ['i'], .stepAfter .increment, .stepBefore .decrement] ∧
      Item.faults (cursor.moves 5).1 = [.unexpectedCharacter '@', .invalidName ['b', '_']] ∧
      (cursor.moves 7).1 = (cursor.moves 5).1 ++ [.ok .finish, .ok .finish] := by
  intro source
  have scanned : source.items = [.ok (.name ['i']), .ok (.stepAfter .increment),
      .error (.unexpectedCharacter '@'), .error (.invalidName ['b', '_']),
      .ok (.stepBefore .decrement)] :=
    Text.items_eq _
  obtain ⟨-, -, covered⟩ := moves_cover source
  obtain ⟨tokens, faults, -, further, -⟩ :=
    covered ⟨.name ['i'], ⟨"@ b_--".toList, [.increment]⟩⟩ rfl
  rw [scanned] at tokens faults further
  exact ⟨_, rfl, tokens, faults, further 2⟩

end Cursor

end LineCalculator
