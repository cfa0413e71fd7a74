import LineCalculator.Proofs.Coverage

/-! Which items a text keeps when its end is replaced. A lexeme depends on the character behind it,
and the steps behind a name are found together with the name. So the items in front of the last one
whose text is kept stay the same, and that one may change. -/

namespace LineCalculator

namespace Text

/-- Whether a text behind a name is too short to tell which steps touch the name. -/
def Undecided (front : Text) : Prop :=
  front.length ≤ 1 ∨ ∃ more, front = '+' :: '+' :: more ∧ more.length ≤ 1

theorem exists_two {t : Text} (long : 1 < t.length) : ∃ c d more, t = c :: d :: more := by
  rcases t with _ | ⟨c, _ | ⟨d, more⟩⟩
  · simp at long
  · simp at long
  · exact ⟨c, d, more, rfl⟩

theorem length_withoutGaps_le (t : Text) : t.withoutGaps.length ≤ t.length :=
  List.length_filter_le ..

end Text

namespace Unread

def behind : Item → Text → Unread
  | .ok (.name _), after => behindName after
  | _, after => ⟨after, []⟩

theorem shown_behind (item : Item) (after : Text) :
    (behind item after).shown = after.withoutGaps := by
  rw [behind.eq_def]
  split
  · exact shown_behindName after
  · exact shown_of_text after

theorem items_waiting (text : Text) (step : Step) (later : List Step) :
    items ⟨text, step :: later⟩ = .ok (.stepAfter step) :: items ⟨text, later⟩ :=
  items_of_item rfl (by simp)

theorem items_behindName_increment (after : Text) :
    ∃ rest : Unread, (behindName ('+' :: '+' :: after)).items =
      .ok (.stepAfter .increment) :: rest.items := by
  rw [behindName.eq_def]
  split
  · exact ⟨_, items_waiting ..⟩
  · exact ⟨_, items_waiting ..⟩
  · next rest other => cases other
  · next single _ => exact absurd rfl (single after)

theorem exists_behindName_append {front : Text} (decided : ¬front.Undecided) :
    ∃ later steps, ∀ other, behindName (front ++ other) = ⟨later ++ other, steps⟩ := by
  rw [Text.Undecided, not_or, not_exists] at decided
  obtain ⟨long, decided⟩ := decided
  fun_cases behindName front with
  | case1 rest => exact ⟨rest, _, fun other => rfl⟩
  | case2 rest single =>
    have two : 1 < rest.length := Nat.lt_of_not_le fun short => decided rest ⟨rfl, short⟩
    obtain ⟨c, d, more, rfl⟩ := Text.exists_two two
    refine ⟨c :: d :: more, [.increment], fun other => behindName.eq_2 _ fun rest same => ?_⟩
    simp_all
  | case3 rest => exact ⟨rest, _, fun other => rfl⟩
  | case4 front both plus minus =>
    obtain ⟨c, d, more, rfl⟩ := Text.exists_two (Nat.lt_of_not_le long)
    refine ⟨c :: d :: more, [], fun other => behindName.eq_4 _ ?_ ?_ ?_⟩ <;> simp_all

end Unread

theorem Lexeme.exists_behind {text : Text} {item : Item} {unread : Unread}
    (lexeme : Lexeme text item unread) :
    ∃ after, text = Item.text item ++ after ∧ unread = .behind item after ∧
      ∀ other : Text, other.head? = after.head? →
        Lexeme (Item.text item ++ other) item (.behind item other) := by
  cases lexeme with
  | step step rest => exact ⟨rest, rfl, rfl, fun other _ => .step step other⟩
  | @sign step rest single =>
    refine ⟨rest, rfl, rfl, fun other same => Lexeme.sign step (?_ : Text.StopsAt _ other)⟩
    rwa [Text.StopsAt, same]
  | @symbol c token known rest =>
    rcases Token.ofSymbol?_cases known with ⟨rfl, rfl⟩ | ⟨rfl, rfl⟩ | ⟨rfl, rfl⟩ <;>
      exact ⟨rest, rfl, rfl, fun other _ => .symbol known other⟩
  | @number digits rest some only ends =>
    refine ⟨rest, rfl, rfl, fun other same => .number some only ?_⟩
    rwa [Text.StopsAt, same]
  | @name word rest valid ends =>
    refine ⟨rest, rfl, rfl, fun other same => .name valid ?_⟩
    rwa [Text.StopsAt, same]
  | @badName word rest whole last ends =>
    refine ⟨rest, rfl, rfl, fun other same => .badName whole last ?_⟩
    rwa [Text.StopsAt, same]
  | @unexpected c gap sign digit letter symbol rest =>
    exact ⟨rest, rfl, rfl, fun other _ => .unexpected gap sign digit letter symbol other⟩

theorem Lexeme.text_ne_nil {text : Text} {item : Item} {unread : Unread}
    (lexeme : Lexeme text item unread) : Item.text item ≠ [] := by
  cases lexeme with
  | step | sign | unexpected => simp [Item.text, Token.text, Step.text, ReadingFault.part]
  | @symbol c token known rest =>
    rcases Token.ofSymbol?_cases known with ⟨-, rfl⟩ | ⟨-, rfl⟩ | ⟨-, rfl⟩ <;>
      simp [Item.text, Token.text]
  | number some only ends => exact some
  | @name word rest valid ends =>
    change word ≠ []
    rintro rfl
    cases valid
  | @badName word rest whole last ends =>
    change word ≠ []
    rintro rfl
    cases whole

theorem Lexeme.withoutGaps_text {text : Text} {item : Item} {unread : Unread}
    (lexeme : Lexeme text item unread) : (Item.text item).withoutGaps = Item.text item := by
  have whole := lexeme.withoutGaps_eq
  obtain ⟨after, rfl, rfl, -⟩ := lexeme.exists_behind
  rw [Text.withoutGaps_append, Unread.shown_behind] at whole
  exact List.append_cancel_right whole

theorem Lexeme.exists_front {gaps text front behind more : Text} {item : Item} {unread : Unread}
    (lexeme : Lexeme text item unread) (skipped : gaps.AllGaps)
    (split : front ++ behind = gaps ++ text)
    (covers : front.withoutGaps = Item.text item ++ more) (further : more ≠ []) :
    ∃ rest : Text, front = gaps ++ (Item.text item ++ rest) ∧ rest.withoutGaps = more ∧
      unread = .behind item (rest ++ behind) ∧
      ∀ other, Lexeme (Item.text item ++ (rest ++ other)) item (.behind item (rest ++ other)) := by
  have plain := lexeme.withoutGaps_text
  have some := lexeme.text_ne_nil
  obtain ⟨after, rfl, rfl, persists⟩ := lexeme.exists_behind
  -- The front reaches beyond the gaps and beyond the lexeme, since it shows more than that.
  obtain ⟨beyond, rfl, within⟩ : ∃ beyond, front = gaps ++ beyond ∧
      beyond ++ behind = Item.text item ++ after := by
    rcases List.append_eq_append_iff.1 split with ⟨missing, rfl, -⟩ | ⟨beyond, rfl, same⟩
    · have none := Text.withoutGaps_of_allGaps fun c here =>
        skipped c (List.mem_append_left missing here)
      rw [none] at covers
      exact absurd (List.append_eq_nil_iff.1 covers.symm).1 some
    · exact ⟨beyond, rfl, same.symm⟩
  rw [Text.withoutGaps_append, Text.withoutGaps_of_allGaps skipped, List.nil_append] at covers
  obtain ⟨rest, rfl, rfl⟩ : ∃ rest, beyond = Item.text item ++ rest ∧ after = rest ++ behind := by
    rcases List.append_eq_append_iff.1 within with ⟨missing, same, -⟩ | ⟨rest, rfl, same⟩
    · have bound := Text.length_withoutGaps_le beyond
      have size := List.length_pos_iff.2 further
      rw [covers, same, List.length_append, List.length_append] at bound
      omega
    · exact ⟨rest, rfl, same⟩
  rw [Text.withoutGaps_append, plain] at covers
  have shown := List.append_cancel_left covers
  refine ⟨rest, rfl, shown, rfl, fun other => persists _ ?_⟩
  cases rest with
  | nil => exact absurd shown.symm further
  | cons c rest => rfl

namespace Unread

theorem items_eq_cons {unread : Unread} {item : Item} {later : List Item}
    (scanned : unread.items = item :: later) :
    ∃ rest, unread.next = (item, rest) ∧ rest.items = later ∧ item ≠ .ok .finish := by
  cases read : unread.next with
  | mk found rest =>
    by_cases last : found = .ok .finish
    · rw [items_of_finish (last ▸ read)] at scanned
      cases scanned
    · rw [items_of_item read last] at scanned
      cases scanned
      exact ⟨rest, rfl, rfl, last⟩

theorem text_ne_nil_of_mem_items {unread : Unread} {item : Item} (here : item ∈ unread.items) :
    Item.text item ≠ [] := by
  obtain ⟨place, read⟩ := exists_next_of_mem_items here
  have reads := place.reads_next
  rw [read] at reads
  generalize place.next.2 = behind at reads
  cases reads with
  | waiting text step later => simp [Item.text, Token.text, Step.text]
  | lexeme skipped lexeme => exact lexeme.text_ne_nil
  | finish skipped => exact absurd here (finish_notMem_items unread)

theorem length_le_of_items {unread : Unread} {earlier later : List Item}
    (scanned : unread.items = earlier ++ later) :
    earlier.length ≤ (earlier.flatMap Item.text).length := by
  have some : ∀ item ∈ earlier, 1 ≤ (Item.text item).length := fun item here =>
    List.length_pos_iff.2 (text_ne_nil_of_mem_items (scanned ▸ List.mem_append_left later here))
  clear scanned
  induction earlier with
  | nil => exact Nat.le_refl 0
  | cons item earlier ih =>
    have first := some item List.mem_cons_self
    have rest := ih fun item here => some item (List.mem_cons_of_mem _ here)
    rw [List.flatMap_cons, List.length_append, List.length_cons]
    omega

theorem exists_behind_append (item : Item) (front : Text) :
    (∃ later steps, ∀ other, behind item (front ++ other) = ⟨later ++ other, steps⟩) ∨
      behind item = behindName ∧ front.Undecided := by
  by_cases named : ∃ name, item = .ok (.name name)
  · obtain ⟨name, rfl⟩ := named
    by_cases short : front.Undecided
    · exact .inr ⟨rfl, short⟩
    · exact .inl (exists_behindName_append short)
  · refine .inl ⟨front, [], fun other => ?_⟩
    exact behind.eq_2 _ _ fun name same => named ⟨name, same⟩

theorem prefix_items_of_undecided {front after other : Text} {earlier later : List Item}
    {item : Item} (short : front.Undecided)
    (scanned : (behindName (front ++ after)).items = earlier ++ item :: later)
    (covers : front.withoutGaps = (earlier ++ [item]).flatMap Item.text) :
    earlier <+: (behindName (front ++ other)).items := by
  cases earlier with
  | nil => exact List.nil_prefix
  | cons first earlier =>
    rcases short with short | ⟨more, rfl, short⟩
    · have bound := front.length_withoutGaps_le
      have count : (first :: earlier ++ [item]).length ≤ front.withoutGaps.length :=
        covers ▸ length_le_of_items (scanned.trans (List.append_cons ..))
      simp only [List.length_append, List.length_cons] at count
      omega
    · obtain ⟨rest, same⟩ := items_behindName_increment (more ++ after)
      obtain ⟨final, again⟩ := items_behindName_increment (more ++ other)
      obtain ⟨rfl, left⟩ := List.cons.inj (same.symm.trans scanned)
      have covered : Text.withoutGaps more = (earlier ++ [item]).flatMap Item.text := by
        rw [Text.withoutGaps_cons rfl, Text.withoutGaps_cons rfl] at covers
        exact (List.cons.inj (List.cons.inj covers).2).2
      have bound := Text.length_withoutGaps_le more
      have count : (earlier ++ [item]).length ≤ (Text.withoutGaps more).length :=
        covered ▸ length_le_of_items (left.trans (List.append_cons ..))
      have none : earlier = [] := by
        simp only [List.length_append, List.length_cons] at count
        exact List.length_eq_zero_iff.1 (by omega)
      rw [none]
      exact ⟨final.items, again.symm⟩

/-- If a front of a text covers some items and one more, those items stay when what stands behind
the front is replaced. -/
theorem prefix_items {front after other : Text} {steps : List Step} {earlier later : List Item}
    {item : Item} (scanned : items ⟨front ++ after, steps⟩ = earlier ++ item :: later)
    (covers : shown ⟨front, steps⟩ = (earlier ++ [item]).flatMap Item.text) :
    earlier <+: items ⟨front ++ other, steps⟩ := by
  induction earlier generalizing front steps with
  | nil => exact List.nil_prefix
  | cons first earlier ih =>
    obtain ⟨rest, read, left, inside⟩ := items_eq_cons scanned
    have reads := reads_iff.2 read
    generalize whole : (⟨front ++ after, steps⟩ : Unread) = unread at reads
    cases reads with
    | waiting text step remaining =>
      obtain ⟨rfl, rfl⟩ := Unread.mk.inj whole
      have covered : shown ⟨front, remaining⟩ = (earlier ++ [item]).flatMap Item.text := by
        simp only [shown, List.flatMap_cons, List.cons_append, List.append_assoc] at covers
        exact List.append_cancel_left covers
      rw [items_waiting]
      exact List.cons_prefix_cons.2 ⟨rfl, ih left covered⟩
    | finish skipped => exact absurd rfl inside
    | @lexeme gaps text _ _ skipped lexeme =>
      obtain ⟨split, rfl⟩ := Unread.mk.inj whole
      have member : item ∈ items ⟨front ++ after, []⟩ := by simp [scanned]
      have last := text_ne_nil_of_mem_items member
      have covered : front.withoutGaps =
          Item.text first ++ (earlier ++ [item]).flatMap Item.text := covers
      obtain ⟨ahead, rfl, covered, rfl, persists⟩ :=
        lexeme.exists_front skipped split covered (by simp [last])
      have same : gaps ++ (Item.text first ++ ahead) ++ other =
          gaps ++ (Item.text first ++ (ahead ++ other)) := by simp
      rw [same, items_of_item (reads_iff.1 (.lexeme skipped (persists other))) inside]
      refine List.cons_prefix_cons.2 ⟨rfl, ?_⟩
      -- Behind a name the front may be too short to tell which steps touch it. It covers one more
      -- item, so that the first of them is told all the same.
      rcases exists_behind_append first ahead with ⟨remaining, found, same⟩ | ⟨named, short⟩
      · rw [same] at left ⊢
        refine ih left ?_
        rw [← covered, ← shown_behind first]
        simpa using congrArg shown (same []).symm
      · rw [named] at left ⊢
        exact prefix_items_of_undecided short left covered

end Unread

end LineCalculator
