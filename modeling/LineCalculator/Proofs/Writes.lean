import LineCalculator.Proofs.Bookkeeping
import LineCalculator.Proofs.Equality
import Mathlib.Data.Finset.Card

/-! Variables as the history of their writes. A name has the value of its last write and the place
of its first one, whatever was written to other names in between.

The main statement says what all that can be observed of the variables comes to. -/

namespace LineCalculator

namespace Variables

def lastWrite? (writes : List (Text × Int)) (name : Text) : Option Int :=
  writes.reverse.lookup name

def firstWritten (writes : List (Text × Int)) : List Text :=
  (writes.map Prod.fst).eraseDups

theorem lastWrite?_cons (write : Text × Int) (later : List (Text × Int)) (name : Text) :
    lastWrite? (write :: later) name =
      (lastWrite? later name).or (if name = write.1 then some write.2 else none) := by
  rw [lastWrite?, List.reverse_cons, List.lookup_append, lookup_cons]
  rfl

theorem find?_setAll (values : Variables) (writes : List (Text × Int)) (name : Text) :
    (values.setAll writes).find? name = (lastWrite? writes name).or (values.find? name) := by
  induction writes generalizing values with
  | nil => rfl
  | cons write later ih =>
    have first : values.setAll (write :: later) = (values.set write.1 write.2).setAll later := rfl
    rw [first, ih, find?_set, lastWrite?_cons]
    by_cases here : name = write.1
    · rw [if_pos here, if_pos here, Option.or_assoc, Option.some_or]
    · rw [if_neg here, if_neg here, Option.or_none]

theorem names_setAll (values : Variables) (writes : List (Text × Int)) :
    (values.setAll writes).names =
      values.names ++ ((writes.map Prod.fst).filter (· ∉ values.names)).eraseDups :=
  names_foldl (fun values write => names_set values write.1 write.2) values writes

theorem names_setAll_empty (writes : List (Text × Int)) :
    (empty.setAll writes).names = firstWritten writes := by
  have none : empty.names = [] := rfl
  rw [names_setAll, none, List.nil_append, List.filter_eq_self.2 fun name _ => by simp]
  rfl

theorem mem_firstWritten {writes : List (Text × Int)} {name : Text} :
    name ∈ firstWritten writes ↔ name ∈ writes.map Prod.fst :=
  List.mem_eraseDups

theorem entries_eq_map_names (values : Variables) :
    values.entries = values.names.map fun name => (name, values.get name) := by
  rw [names, List.map_map]
  refine (List.map_id _).symm.trans (List.map_congr_left fun entry here => ?_)
  have found : values.find? entry.1 = some entry.2 := find?_eq_some_iff.2 here
  simp [get, found]

theorem index?_eq_some_iff {values : Variables} {name : Text} {index : Nat} :
    values.index? name = some index ↔ values.names[index]? = some name := by
  rw [index?, List.idxOf?_eq_some_iff, List.getElem?_eq_some_iff]
  refine exists_congr fun within => and_iff_left_of_imp ?_
  rintro here earlier before same
  have equal : earlier = index :=
    (List.Nodup.getElem_inj_iff values.nodup).1 (same.trans here.symm)
  omega

theorem size_setAll_empty (writes : List (Text × Int)) :
    (empty.setAll writes).size = (writes.map Prod.fst).toFinset.card := by
  have distinct : (firstWritten writes).Nodup := names_setAll_empty writes ▸ (setAll _ writes).nodup
  have same : (firstWritten writes).toFinset = (writes.map Prod.fst).toFinset := by
    ext name
    rw [List.mem_toFinset, List.mem_toFinset, mem_firstWritten]
  rw [← same, List.toFinset_card_of_nodup distinct, ← names_setAll_empty, names, List.length_map]
  rfl

end Variables

theorem Calculator.evaluateExpression_name {name : Text} (valid : Name.isValid name = true)
    (calculator : Calculator) :
    (evaluateExpression name calculator).1 = .ok (calculator.values.get name) ∧
      (evaluateExpression name calculator).2.values = calculator.values := by
  have items : name.items = [.ok (.name name)] := by
    rw [Text.items, Unread.items_of_item (Unread.next_of_isValid valid) (by simp),
      Unread.items_of_finish rfl]
  have evaluated := evaluateExpression_eq_reading name calculator
  rw [Text.reading, items] at evaluated
  exact ⟨(congrArg Prod.fst evaluated).symm, (congrArg Prod.snd evaluated).symm⟩

namespace Variables

/-- Variables that were made by writing one after the other have, for each name, the value of the
last write, and list each name once, in the order of the first writes. The position of a name is
the one at which it is listed, and a name that was never written has none. There are as many
variables as different names were written. Reading a variable changes nothing. -/
theorem setAll_empty_observed (writes : List (Text × Int)) :
    let values := empty.setAll writes
    (∀ name, values.get name = (lastWrite? writes name).getD 0) ∧
      values.entries = (firstWritten writes).map (fun name => (name, values.get name)) ∧
      (∀ name index, values.index? name = some index ↔ (firstWritten writes)[index]? = some name) ∧
      (∀ name, values.index? name = none ↔ name ∉ writes.map Prod.fst) ∧
      values.size = (writes.map Prod.fst).toFinset.card ∧
      (values.isEmpty = true ↔ values.size = 0) ∧
      ∀ (calculator : Calculator) (name : Text), calculator.values = values →
        Name.isValid name = true →
        (Calculator.evaluateExpression name calculator).1 = .ok (values.get name) ∧
          (Calculator.evaluateExpression name calculator).2.values = values := by
  intro values
  have listed : values.names = firstWritten writes := names_setAll_empty writes
  refine ⟨fun name => ?_, ?_, fun name index => ?_, fun name => ?_, size_setAll_empty writes, ?_, ?_⟩
  · rw [get, find?_setAll, find?_empty, Option.or_none]
  · rw [← listed]
    exact values.entries_eq_map_names
  · rw [← listed]
    exact index?_eq_some_iff
  · rw [← mem_firstWritten, ← listed]
    exact List.idxOf?_eq_none_iff
  · rw [isEmpty, size, List.isEmpty_iff, List.length_eq_zero_iff]
  · rintro calculator name same valid
    rw [← same]
    exact Calculator.evaluateExpression_name valid calculator

theorem setAll_empty_observed_of_repeated :
    let values := empty.setAll [(['b'], 1), ([], 0), (['b'], -5), (['a'], 7)]
    values.entries = [(['b'], -5), ([], 0), (['a'], 7)] ∧ values.size = 3 ∧
      values.index? ['a'] = some 2 ∧ values.index? ['c'] = none ∧
      (Calculator.evaluateExpression ['b'] ⟨values, .empty⟩).1 = .ok (-5) := by
  intro values
  obtain ⟨last, listed, position, missing, count, -, read⟩ :=
    setAll_empty_observed [(['b'], 1), ([], 0), (['b'], -5), (['a'], 7)]
  refine ⟨listed.trans ?_, count, (position _ _).2 rfl, (missing _).2 (by decide), ?_⟩
  · simp only [last]
    rfl
  · rw [(read ⟨values, .empty⟩ ['b'] rfl rfl).1, last]
    rfl

end Variables

end LineCalculator
