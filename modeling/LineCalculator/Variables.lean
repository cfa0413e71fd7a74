import LineCalculator.Text.Decimal
import LineCalculator.Text.Pieces

/-! The variables with their values, in the order in which they were first assigned. No name
occurs twice. A name that was never assigned reads as zero. -/

namespace LineCalculator

structure Variables where
  entries : List (Text × Int) := []
  nodup : (entries.map Prod.fst).Nodup := by simp
  deriving DecidableEq, Repr

namespace Variables

def empty : Variables := {}

instance : Inhabited Variables := ⟨empty⟩

def names (values : Variables) : List Text :=
  values.entries.map Prod.fst

def find? (values : Variables) (name : Text) : Option Int :=
  values.entries.lookup name

def get (values : Variables) (name : Text) : Int :=
  (values.find? name).getD 0

def assign (name : Text) (value : Int) : List (Text × Int) → List (Text × Int)
  | [] => [(name, value)]
  | entry :: later =>
    if name = entry.1 then (name, value) :: later else entry :: assign name value later

theorem names_assign (name : Text) (value : Int) (entries : List (Text × Int)) :
    (assign name value entries).map Prod.fst =
      if name ∈ entries.map Prod.fst then entries.map Prod.fst
      else entries.map Prod.fst ++ [name] := by
  induction entries with
  | nil => simp [assign]
  | cons entry later ih =>
    by_cases same : name = entry.1
    · simp [assign, same]
    · rw [assign, if_neg same, List.map_cons, ih]
      by_cases known : name ∈ later.map Prod.fst <;> simp [same, known]

theorem nodup_assign {entries : List (Text × Int)} (nodup : (entries.map Prod.fst).Nodup)
    (name : Text) (value : Int) : ((assign name value entries).map Prod.fst).Nodup := by
  rw [names_assign]
  split
  · exact nodup
  · next absent =>
    rw [List.nodup_append]
    refine ⟨nodup, by simp, ?_⟩
    rintro a present b last rfl
    exact absent (List.mem_singleton.1 last ▸ present)

/-- Assigns a value. A new name comes last, a known one keeps its place. -/
def set (values : Variables) (name : Text) (value : Int) : Variables where
  entries := assign name value values.entries
  nodup := nodup_assign values.nodup name value

def size (values : Variables) : Nat :=
  values.entries.length

def isEmpty (values : Variables) : Bool :=
  values.entries.isEmpty

def index? (values : Variables) (name : Text) : Option Nat :=
  values.names.idxOf? name

/-- Whether the same names have the same values, whatever the order of assignment. -/
def agree (left right : Variables) : Bool :=
  left.size == right.size &&
    left.entries.all fun entry => right.find? entry.1 == some entry.2

def entryText (entry : Text × Int) : Text :=
  entry.1 ++ '=' :: Decimal.ofInt entry.2

/-- All variables on one line, as in `(a=1,b=2)`. -/
def text (values : Variables) : Text :=
  '(' :: [','].intercalate (values.entries.map entryText) ++ [')']

@[ext] theorem ext {left right : Variables} (same : left.entries = right.entries) :
    left = right := by
  cases left
  cases right
  cases same
  rfl

@[simp] theorem find?_empty (name : Text) : empty.find? name = none := rfl

theorem lookup_cons (name : Text) (entry : Text × Int) (later : List (Text × Int)) :
    (entry :: later).lookup name =
      if name = entry.1 then some entry.2 else later.lookup name := by
  obtain ⟨known, value⟩ := entry
  rw [List.lookup_cons]
  by_cases same : name = known
  · simp [same]
  · simp [beq_false_of_ne same, same]

theorem lookup_assign (name other : Text) (value : Int) (entries : List (Text × Int)) :
    (assign name value entries).lookup other =
      if other = name then some value else entries.lookup other := by
  induction entries with
  | nil => rw [assign, lookup_cons]
  | cons entry later ih =>
    by_cases here : name = entry.1
    · by_cases same : other = entry.1 <;> simp [assign, lookup_cons, here, same]
    · by_cases same : other = entry.1
      · simp [assign, lookup_cons, here, same, Ne.symm here]
      · simp [assign, lookup_cons, here, same, ih]

@[simp] theorem find?_set (values : Variables) (name other : Text) (value : Int) :
    (values.set name value).find? other =
      if other = name then some value else values.find? other :=
  lookup_assign name other value values.entries

@[simp] theorem get_set (values : Variables) (name other : Text) (value : Int) :
    (values.set name value).get other = if other = name then value else values.get other := by
  simp only [get, find?_set]
  split <;> rfl

theorem names_set (values : Variables) (name : Text) (value : Int) :
    (values.set name value).names =
      if name ∈ values.names then values.names else values.names ++ [name] :=
  names_assign name value values.entries

theorem forall_names_set {p : Text → Prop} {values : Variables}
    (known : ∀ name ∈ values.names, p name) {name : Text} (new : p name) (value : Int) :
    ∀ other ∈ (values.set name value).names, p other := by
  intro other member
  rw [names_set] at member
  split at member
  · exact known other member
  · rcases List.mem_append.1 member with earlier | last
    · exact known other earlier
    · exact List.mem_singleton.1 last ▸ new

end Variables

end LineCalculator
