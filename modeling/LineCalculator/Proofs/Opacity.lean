import LineCalculator.Proofs.Locality
import LineCalculator.Proofs.Renaming
import Mathlib.Data.List.Nodup

/-! Names of variables do not count. Reading looks at the kinds of tokens only, and evaluating uses a
name for nothing but to find a variable and to set it. No name is ever refused, so no fault shows one
that is replaced.

The main statement is that a renamed text, evaluated with renamed variables, comes to the same value
or the same fault and leaves the renamed variables, in their order. -/

namespace LineCalculator

def Place.mapNames (rename : Text → Text) : Place → Place
  | operand => operand
  | behindStep step => behindStep step
  | behindName name => behindName (rename name)
  | complete factor => complete (factor.mapNames rename)

namespace Progress

def mapWaiting (rename : Text → Text) (waiting : Option (Tree × Operator)) :
    Option (Tree × Operator) :=
  waiting.map fun pending => (pending.1.mapNames rename, pending.2)

def mapNames (rename : Text → Text) (progress : Progress) : Progress where
  sum := mapWaiting rename progress.sum
  product := mapWaiting rename progress.product
  signs := progress.signs
  place := progress.place.mapNames rename

end Progress

def Reading.mapNames (rename : Text → Text) : Reading → Reading
  | whole tree rest => whole (tree.mapNames rename) (rest.map (Item.mapName rename))
  | refused parts token rest =>
    refused (parts.map (Tree.mapNames rename)) (token.mapName rename)
      (rest.map (Item.mapName rename))
  | faulty parts fault => faulty (parts.map (Tree.mapNames rename)) fault

namespace Progress

variable (rename : Text → Text)

theorem signed_mapNames (signs : Nat) (tree : Tree) :
    signed signs (tree.mapNames rename) = (signed signs tree).mapNames rename := by
  induction signs generalizing tree with
  | zero => rfl
  | succ signs ih => exact ih (.opposite tree)

theorem joined_mapNames (waiting : Option (Tree × Operator)) (tree : Tree) :
    joined (mapWaiting rename waiting) (tree.mapNames rename) =
      (joined waiting tree).mapNames rename := by
  cases waiting <;> rfl

theorem term_mapNames (progress : Progress) (factor : Tree) :
    (progress.mapNames rename).term (factor.mapNames rename) =
      (progress.term factor).mapNames rename := by
  rw [term, term, ← joined_mapNames, ← signed_mapNames]
  rfl

theorem expression_mapNames (progress : Progress) (factor : Tree) :
    (progress.mapNames rename).expression (factor.mapNames rename) =
      (progress.expression factor).mapNames rename := by
  rw [expression, expression, ← joined_mapNames, ← term_mapNames]
  rfl

theorem behindFactor_mapNames (progress : Progress) (factor : Tree) (op : Operator) :
    (progress.mapNames rename).behindFactor (factor.mapNames rename) op =
      (progress.behindFactor factor op).mapNames rename := by
  rw [behindFactor, behindFactor, term_mapNames, expression_mapNames]
  split <;> rfl

theorem next_mapNames (progress : Progress) (token : Token) :
    (progress.mapNames rename).next (token.mapName rename) =
      (progress.next token).map (mapNames rename) := by
  obtain ⟨sum, product, signs, place⟩ := progress
  cases place with
  | operand =>
    cases token with
    | operator op => cases op <;> rfl
    | _ => rfl
  | behindStep step => cases token <;> rfl
  | behindName name =>
    cases token with
    | operator op => exact congrArg some (behindFactor_mapNames rename _ (.read name) op)
    | _ => rfl
  | complete factor =>
    cases token with
    | operator op => exact congrArg some (behindFactor_mapNames rename _ factor op)
    | _ => rfl

theorem tree?_mapNames (progress : Progress) :
    (progress.mapNames rename).tree? = progress.tree?.map (Tree.mapNames rename) := by
  obtain ⟨sum, product, signs, place⟩ := progress
  cases place with
  | operand | behindStep step => rfl
  | behindName name => exact congrArg some (expression_mapNames rename _ (.read name))
  | complete factor => exact congrArg some (expression_mapNames rename _ factor)

theorem parts_mapNames (progress : Progress) :
    (progress.mapNames rename).parts = progress.parts.map (Tree.mapNames rename) := by
  obtain ⟨sum, product, signs, place⟩ := progress
  cases sum <;> cases product <;> rfl

theorem ended_mapNames (progress : Progress) (token : Token) (rest : List Item) :
    (progress.mapNames rename).ended (token.mapName rename) (rest.map (Item.mapName rename)) =
      (progress.ended token rest).mapNames rename := by
  rw [ended, ended, tree?_mapNames, parts_mapNames]
  cases progress.tree? <;> rfl

theorem read_mapNames (progress : Progress) (items : List Item) :
    (progress.mapNames rename).read (items.map (Item.mapName rename)) =
      (progress.read items).mapNames rename := by
  induction items generalizing progress with
  | nil => exact ended_mapNames rename progress .finish []
  | cons item rest ih =>
    cases item with
    | error fault => exact congrArg (Reading.faulty · fault) (parts_mapNames rename progress)
    | ok token =>
      change (progress.mapNames rename).read
        (.ok (token.mapName rename) :: rest.map (Item.mapName rename)) = _
      rw [read, read, next_mapNames]
      cases progress.next token with
      | none => exact ended_mapNames rename progress token (.ok token :: rest)
      | some following => exact ih following

theorem exists_next_name {progress : Progress} (unfinished : progress.tree? = none) (name : Text) :
    ∃ following, progress.next (.name name) = some following := by
  obtain ⟨sum, product, signs, place⟩ := progress
  cases place with
  | operand | behindStep step => exact ⟨_, rfl⟩
  | behindName known => cases unfinished
  | complete factor => cases unfinished

theorem ne_name_of_refused {progress : Progress} {items rest : List Item} {parts : List Tree}
    {token : Token} (refused : progress.read items = .refused parts token rest) (name : Text) :
    token ≠ .name name := by
  induction items generalizing progress with
  | nil =>
    rw [read, ended] at refused
    split at refused <;> cases refused
    simp
  | cons item later ih =>
    cases item with
    | error fault => cases refused
    | ok first =>
      rw [read] at refused
      split at refused
      · next following fits => exact ih refused
      · next misfit =>
        rw [ended] at refused
        split at refused <;> cases refused
        -- The token does not fit where the expression cannot end, and a name would.
        next unfinished =>
          rintro rfl
          obtain ⟨following, fits⟩ := exists_next_name unfinished name
          cases misfit.symm.trans fits

end Progress

namespace Renaming

variable (rename : Renaming)

def entry (known : Text × Int) : Text × Int :=
  (rename.image known.1, known.2)

/-- The variables on the right are those on the left, which have valid names, renamed. -/
structure Renames (left right : Variables) : Prop where
  valid : ∀ name ∈ left.names, Name.isValid name = true
  entries : right.entries = left.entries.map rename.entry

variable {rename}

theorem image_eq_iff {name other : Text} (valid : Name.isValid name = true)
    (also : Name.isValid other = true) :
    rename.image name = rename.image other ↔ name = other :=
  ⟨rename.injective valid also, congrArg rename.image⟩

theorem exists_renames {values : Variables}
    (valid : ∀ name ∈ values.names, Name.isValid name = true) :
    ∃ image, rename.Renames values image := by
  have distinct : ((values.entries.map rename.entry).map Prod.fst).Nodup := by
    have names : (values.entries.map rename.entry).map Prod.fst =
        values.names.map rename.image := by
      rw [List.map_map, Variables.names, List.map_map]
      rfl
    rw [names]
    exact values.nodup.map_on fun name here other there =>
      rename.injective (valid name here) (valid other there)
  exact ⟨⟨_, distinct⟩, valid, rfl⟩

section Entries

variable {name : Text} (valid : Name.isValid name = true) {entries : List (Text × Int)}
  (known : ∀ other ∈ entries.map Prod.fst, Name.isValid other = true)

include valid known

theorem lookup_map_entry :
    (entries.map rename.entry).lookup (rename.image name) = entries.lookup name := by
  induction entries with
  | nil => rfl
  | cons entry later ih =>
    obtain ⟨first, rest⟩ := List.forall_mem_cons.1 known
    rw [List.map_cons, Variables.lookup_cons, Variables.lookup_cons, ih rest]
    simp only [Renaming.entry, image_eq_iff valid first]

theorem assign_map_entry (value : Int) :
    Variables.assign (rename.image name) value (entries.map rename.entry) =
      (Variables.assign name value entries).map rename.entry := by
  induction entries with
  | nil => rfl
  | cons entry later ih =>
    obtain ⟨first, rest⟩ := List.forall_mem_cons.1 known
    rw [List.map_cons, Variables.assign, Variables.assign, ih rest]
    simp only [Renaming.entry, image_eq_iff valid first]
    split <;> rfl

end Entries

namespace Renames

variable {left right : Variables} (renames : rename.Renames left right) {name : Text}
  (valid : Name.isValid name = true)

include renames valid

theorem get_eq : left.get name = right.get (rename.image name) := by
  rw [Variables.get, Variables.get, Variables.find?, Variables.find?, renames.entries,
    lookup_map_entry valid renames.valid]

theorem set (value : Int) :
    rename.Renames (left.set name value) (right.set (rename.image name) value) where
  valid := Variables.forall_names_set renames.valid valid value
  entries := by
    change Variables.assign _ value right.entries = (Variables.assign name value left.entries).map _
    rw [renames.entries]
    exact assign_map_entry valid renames.valid value

end Renames

theorem correspondence_renames (rename : Renaming) :
    Variables.Correspondence (Name.isValid · = true) rename.image rename.Renames where
  get renames valid := renames.get_eq valid
  set renames valid value := renames.set valid value

theorem matches_reading {reading : Reading}
    (within : ∀ tree ∈ reading.trees, tree.Within (Name.isValid · = true))
    (unnamed : ∀ parts token rest, reading = .refused parts token rest →
      ∀ name, token ≠ .name name) :
    Action.Matches rename.Renames reading.evaluate (reading.mapNames rename.image).evaluate := by
  have correspondence := rename.correspondence_renames
  cases reading with
  | whole tree rest => exact (within tree List.mem_cons_self).matches correspondence
  | refused parts token rest =>
    -- The fault shows the text of the token, so the token must stay as it is.
    have kept : token.mapName rename.image = token := by
      cases token with
      | name name => exact absurd rfl (unnamed parts _ rest rfl name)
      | _ => rfl
    rw [Reading.mapNames, kept]
    exact (Tree.matches_evaluateAll correspondence within).bind fun _ => .ofExcept (.error _)
  | faulty parts fault =>
    exact (Tree.matches_evaluateAll correspondence within).bind fun _ => .ofExcept (.error _)

theorem reading_text (source : Text) :
    (rename.text source).reading = source.reading.mapNames rename.image := by
  rw [Text.reading, Text.reading, rename.items_text, ← Progress.read_mapNames]
  rfl

theorem matches_text (source : Text) :
    Action.Matches rename.Renames source.reading.evaluate (rename.text source).reading.evaluate := by
  rw [reading_text]
  refine matches_reading ?_ fun parts token rest => Progress.ne_name_of_refused
  exact Progress.within_fresh.read fun name => Text.wellSpelled_of_mem_items

def behindLetter (letter : Char) (start : Name.isStart letter = true) : Renaming where
  image name := letter :: name
  isValid_image {name} valid := by
    obtain ⟨whole, last⟩ := Name.isValid_iff.1 valid
    obtain ⟨first, parts, rfl, begins, only⟩ := Name.exists_of_isWord whole
    refine Name.isValid_iff.2 ⟨?_, by rwa [List.getLast?_cons_cons]⟩
    rw [Name.isWord, start, Bool.true_and]
    exact List.all_eq_true.2 fun c here => Name.isPart_of_mem valid here
  injective _ _ same := (List.cons.inj same).2

end Renaming

namespace Calculator

/-- Evaluating a renamed text with renamed variables comes to the same value or fault as without the
renaming, and leaves the renamed variables in the same order. The renamed text has the items of the
text, with the names replaced. -/
theorem evaluateExpression_renamed (rename : Renaming) (source : Text) {calculator : Calculator}
    (valid : ∀ name ∈ calculator.values.names, Name.isValid name = true) :
    (rename.text source).items = source.items.map (Item.mapName rename.image) ∧
      ∃ image : Variables, image.entries = calculator.values.entries.map rename.entry ∧
        ∀ other : Calculator, other.values = image →
          (evaluateExpression (rename.text source) other).1 =
              (evaluateExpression source calculator).1 ∧
            (evaluateExpression (rename.text source) other).2.values.entries =
              (evaluateExpression source calculator).2.values.entries.map rename.entry := by
  refine ⟨rename.items_text source, ?_⟩
  obtain ⟨image, renames⟩ := Renaming.exists_renames valid
  refine ⟨image, renames.entries, ?_⟩
  rintro other rfl
  have same := Renaming.matches_text source _ _ renames
  rw [evaluateExpression_eq_reading, evaluateExpression_eq_reading] at same
  exact ⟨same.1.symm, same.2.entries⟩

theorem evaluateExpression_renamed_of_fault :
    let rename := Renaming.behindLetter 'v' rfl
    let calculator : Calculator := ⟨⟨[(['b', '2'], 4)], by simp⟩, .empty⟩
    let renamed : Calculator := ⟨⟨[(['v', 'b', '2'], 4)], by simp⟩, .empty⟩
    let source : Text := "i++ - b2*3x_ y".toList
    rename.text source = "vi++ - vb2*3x_ vy".toList ∧
      (evaluateExpression source calculator).2.values.entries = [(['b', '2'], 4), (['i'], 1)] ∧
      (evaluateExpression (rename.text source) renamed).1 =
        .error (.reading (.invalidName ['x', '_'])) ∧
      (evaluateExpression (rename.text source) renamed).2.values.entries =
        [(['v', 'b', '2'], 4), (['v', 'i'], 1)] := by
  intro rename calculator renamed source
  have scanned : source.items = [.ok (.name ['i']), .ok (.stepAfter .increment),
      .ok (.operator .subtract), .ok (.name ['b', '2']), .ok (.operator .multiply),
      .ok (.number ['3']), .error (.invalidName ['x', '_']), .ok (.name ['y'])] :=
    Text.items_eq source
  have reading := evaluateExpression_eq_reading source calculator
  rw [Text.reading, scanned] at reading
  have valid : ∀ name ∈ calculator.values.names, Name.isValid name = true :=
    List.forall_mem_singleton.2 rfl
  obtain ⟨-, image, entries, outcome⟩ := evaluateExpression_renamed rename source valid
  obtain ⟨same, kept⟩ := outcome renamed (Variables.ext entries.symm)
  have written : rename.text source = "vi++ - vb2*3x_ vy".toList := by
    simp [rename, source, Renaming.text, Renaming.word, Renaming.behindLetter, Name.isStart,
      Name.isPart, Name.isValid]
  have left : (evaluateExpression source calculator).2.values.entries =
      [(['b', '2'], 4), (['i'], 1)] :=
    congrArg (fun result => result.2.entries) reading.symm
  refine ⟨written, left, same.trans (congrArg Prod.fst reading.symm), kept.trans ?_⟩
  rw [left]
  rfl

end Calculator

end LineCalculator
