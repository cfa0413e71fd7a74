import LineCalculator.Variables
import Mathlib.Data.List.Nodup
import Mathlib.Data.List.Perm.Subperm

/-! When variables agree. The order of assignment does not count, so two lists of entries agree
when one is a permutation of the other, which is when every name has the same value in both or is
missing in both.

The main statement adds what becomes of the order: two assignments can be exchanged, and the lists
of entries stay the same unless both bring in a new name. -/

namespace LineCalculator.Variables

theorem lookup_eq_some_iff {entries : List (Text × Int)}
    (nodup : (entries.map Prod.fst).Nodup) {name : Text} {value : Int} :
    entries.lookup name = some value ↔ (name, value) ∈ entries := by
  induction entries with
  | nil => simp
  | cons entry later ih =>
    rw [List.map_cons, List.nodup_cons] at nodup
    rw [lookup_cons, List.mem_cons]
    by_cases here : name = entry.1
    · have absent : (entry.1, value) ∉ later := fun again =>
        nodup.1 (List.mem_map.2 ⟨_, again, rfl⟩)
      rw [if_pos here, here]
      constructor
      · intro same
        exact .inl (Prod.ext rfl (Option.some.inj same).symm)
      · rintro (same | again)
        · rw [← same]
        · exact absurd again absent
    · simp [here, ih nodup.2, Prod.ext_iff]

theorem find?_eq_some_iff {values : Variables} {name : Text} {value : Int} :
    values.find? name = some value ↔ (name, value) ∈ values.entries :=
  lookup_eq_some_iff values.nodup

theorem nodup_entries (values : Variables) : values.entries.Nodup :=
  values.nodup.of_map Prod.fst

theorem agree_iff_perm {left right : Variables} :
    left.agree right = true ↔ left.entries.Perm right.entries := by
  have known : (left.entries.all fun entry => right.find? entry.1 == some entry.2) = true ↔
      left.entries ⊆ right.entries := by
    simp [find?_eq_some_iff, List.subset_def]
  rw [agree, Bool.and_eq_true, beq_iff_eq, known]
  constructor
  · rintro ⟨sizes, within⟩
    exact (left.nodup_entries.subperm within).perm_of_length_le (Nat.le_of_eq sizes.symm)
  · intro perm
    exact ⟨perm.length_eq, perm.subset⟩

theorem agree_iff {left right : Variables} :
    left.agree right = true ↔ ∀ name, left.find? name = right.find? name := by
  rw [agree_iff_perm, List.perm_ext_iff_of_nodup left.nodup_entries right.nodup_entries]
  constructor
  · intro same name
    ext value
    rw [find?_eq_some_iff, find?_eq_some_iff, same]
  · rintro same ⟨name, value⟩
    rw [← find?_eq_some_iff, ← find?_eq_some_iff, same]

theorem agree_set {left right : Variables} (same : left.agree right = true) (name : Text)
    (value : Int) : (left.set name value).agree (right.set name value) = true := by
  refine agree_iff.2 fun other => ?_
  rw [find?_set, find?_set, agree_iff.1 same]

theorem equivalence_agree : Equivalence fun left right : Variables => left.agree right = true where
  refl _ := agree_iff.2 fun _ => rfl
  symm same := agree_iff.2 fun name => (agree_iff.1 same name).symm
  trans same further := agree_iff.2 fun name =>
    (agree_iff.1 same name).trans (agree_iff.1 further name)

section Exchange

variable {first second : Text} (apart : first ≠ second) (one other : Int)

include apart

theorem agree_set_set (values : Variables) :
    ((values.set first one).set second other).agree ((values.set second other).set first one) =
      true := by
  refine agree_iff.2 fun name => ?_
  simp only [find?_set]
  by_cases here : name = first
  · simp [here, apart]
  · simp [here]

theorem assign_assign {entries : List (Text × Int)}
    (known : first ∈ entries.map Prod.fst ∨ second ∈ entries.map Prod.fst) :
    assign second other (assign first one entries) =
      assign first one (assign second other entries) := by
  induction entries with
  | nil => simp at known
  | cons entry later ih =>
    by_cases here : first = entry.1
    · have notSecond : second ≠ entry.1 := here ▸ apart.symm
      simp only [assign, if_pos here, if_neg notSecond, if_neg apart.symm]
    · by_cases there : second = entry.1
      · simp only [assign, if_neg here, if_pos there, if_neg apart]
      · have within : first ∈ later.map Prod.fst ∨ second ∈ later.map Prod.fst := by
          simpa [here, there] using known
        simp only [assign, if_neg here, if_neg there, ih within]

theorem set_set_eq_iff {values : Variables} :
    (values.set first one).set second other = (values.set second other).set first one ↔
      first ∈ values.names ∨ second ∈ values.names := by
  constructor
  · intro same
    by_contra new
    obtain ⟨newFirst, newSecond⟩ := not_or.1 new
    have ordered := congrArg names same
    rw [names_set, names_set, names_set, names_set, if_neg newFirst, if_neg newSecond,
      if_neg (by simp [newSecond, apart.symm]), if_neg (by simp [newFirst, apart]),
      List.append_assoc, List.append_assoc] at ordered
    exact apart (List.cons.inj (List.append_cancel_left ordered)).1
  · exact fun known => Variables.ext (assign_assign apart one other known)

end Exchange

/-- Variables agree exactly when their entries are the same up to their order, so a name with the
value zero tells them apart from variables without it. To agree is an equivalence, and assigning to
one name on both sides keeps it. Assignments to two names can be exchanged, and that leaves the
order of the entries as it was unless both names are new. -/
theorem agree_regardless_of_order :
    (∀ left right : Variables, left.agree right = true ↔ left.entries.Perm right.entries) ∧
      (∀ (left right : Variables) (name : Text), left.find? name = some 0 → name ∉ right.names →
        left.agree right = false) ∧
      (Equivalence fun left right : Variables => left.agree right = true) ∧
      (∀ (left right : Variables) (name : Text) (value : Int), left.agree right = true →
        (left.set name value).agree (right.set name value) = true) ∧
      ∀ (values : Variables) (first second : Text) (one other : Int), first ≠ second →
        let firstBefore := (values.set first one).set second other
        let secondBefore := (values.set second other).set first one
        firstBefore.agree secondBefore = true ∧
          (firstBefore.entries = secondBefore.entries ↔
            first ∈ values.names ∨ second ∈ values.names) := by
  refine ⟨fun _ _ => agree_iff_perm, fun left right name zero absent => ?_, equivalence_agree,
    fun _ _ name value same => agree_set same name value,
    fun values first second one other apart => ⟨agree_set_set apart one other values, ?_⟩⟩
  · refine Bool.eq_false_iff.2 fun same => absent ?_
    have found := (agree_iff.1 same name).symm.trans zero
    exact List.mem_map_of_mem (find?_eq_some_iff.1 found)
  · rw [← set_set_eq_iff apart one other]
    exact ⟨Variables.ext, congrArg entries⟩

theorem agree_regardless_of_order_of_new :
    let values : Variables := ⟨[(['z'], 9)], by simp⟩
    let firstBefore := (values.set ['x'] 1).set ['y'] 0
    let secondBefore := (values.set ['y'] 0).set ['x'] 1
    firstBefore.agree secondBefore = true ∧ firstBefore.entries ≠ secondBefore.entries ∧
      firstBefore.agree (values.set ['x'] 1) = false := by
  intro values firstBefore secondBefore
  obtain ⟨-, zero, -, -, exchange⟩ := agree_regardless_of_order
  obtain ⟨same, ordered⟩ := exchange values ['x'] ['y'] 1 0 (by decide)
  refine ⟨same, fun equal => ?_, zero firstBefore (values.set ['x'] 1) ['y'] rfl (by decide)⟩
  exact absurd (ordered.1 equal) (by decide)

end LineCalculator.Variables
