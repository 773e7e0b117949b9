/-!
# Containers that keep the order of insertion

A key or an element that is put in again keeps the place that it has.
-/

namespace XamlAssist

/-- The list with an element at its end, unless it holds it already. -/
def insertNew {α : Type} [BEq α] (xs : List α) (x : α) : List α :=
  if xs.contains x then xs else xs ++ [x]

theorem mem_insertNew {α : Type} [BEq α] [LawfulBEq α] {xs : List α} {x y : α} :
    y ∈ insertNew xs x ↔ y ∈ xs ∨ y = x := by
  unfold insertNew
  split
  · next h =>
      have hx : x ∈ xs := List.contains_iff_mem.mp h
      exact ⟨.inl, fun hy => hy.elim id fun hyx => hyx ▸ hx⟩
  · simp

theorem nodup_insertNew {α : Type} [BEq α] [LawfulBEq α] {xs : List α} (h : xs.Nodup) (x : α) :
    (insertNew xs x).Nodup := by
  unfold insertNew
  split
  · exact h
  · next hx =>
      have hx : x ∉ xs := fun hmem => hx (List.contains_iff_mem.mpr hmem)
      rw [List.nodup_append]
      refine ⟨h, by simp, ?_⟩
      intro a ha b hb hab
      rw [List.mem_singleton] at hb
      exact hx (hb ▸ hab ▸ ha)

/-- The list with several elements put in one after the other. -/
def insertAllNew {α : Type} [BEq α] (xs ys : List α) : List α := ys.foldl insertNew xs

/-- A map whose keys are in the order of their first insertion. -/
structure OrderedMap (κ α : Type) where
  entries : List (κ × α) := []
  deriving DecidableEq, Repr

namespace OrderedMap

variable {κ α : Type} [BEq κ]

def get? (map : OrderedMap κ α) (key : κ) : Option α := map.entries.lookup key

def contains (map : OrderedMap κ α) (key : κ) : Bool := (map.get? key).isSome

/-- The list of entries with a key set; the key keeps its place. -/
def insertEntry (key : κ) (value : α) : List (κ × α) → List (κ × α)
  | [] => [(key, value)]
  | entry :: entries =>
      if key == entry.1 then (key, value) :: entries else entry :: insertEntry key value entries

/-- Sets a key; the last value counts. -/
def insert (map : OrderedMap κ α) (key : κ) (value : α) : OrderedMap κ α :=
  ⟨insertEntry key value map.entries⟩

/-- Sets a key that has no value; the first value counts. -/
def insertIfNew (map : OrderedMap κ α) (key : κ) (value : α) : OrderedMap κ α :=
  if map.contains key then map else map.insert key value

def keys (map : OrderedMap κ α) : List κ := map.entries.map Prod.fst

def values (map : OrderedMap κ α) : List α := map.entries.map Prod.snd

variable [LawfulBEq κ]

private theorem lookup_insertEntry_self (key : κ) (value : α) (entries : List (κ × α)) :
    (insertEntry key value entries).lookup key = some value := by
  induction entries with
  | nil => simp [insertEntry]
  | cons entry entries ih =>
      obtain ⟨name, old⟩ := entry
      by_cases h : key = name
      · simp [insertEntry, h]
      · have hne : (key == name) = false := beq_eq_false_iff_ne.mpr h
        simp [insertEntry, List.lookup_cons, hne, ih]

private theorem lookup_insertEntry_of_ne {key other : κ} (h : other ≠ key) (value : α)
    (entries : List (κ × α)) :
    (insertEntry key value entries).lookup other = entries.lookup other := by
  induction entries with
  | nil => simp [insertEntry, h]
  | cons entry entries ih =>
      obtain ⟨name, old⟩ := entry
      by_cases hk : key = name
      · have hne : (other == name) = false := beq_eq_false_iff_ne.mpr (hk ▸ h)
        simp [insertEntry, List.lookup_cons, hk, hne]
      · simp [insertEntry, List.lookup_cons, hk, ih]

@[simp]
theorem get?_insert_self (map : OrderedMap κ α) (key : κ) (value : α) :
    (map.insert key value).get? key = some value :=
  lookup_insertEntry_self key value map.entries

theorem get?_insert_of_ne (map : OrderedMap κ α) {key other : κ} (h : other ≠ key) (value : α) :
    (map.insert key value).get? other = map.get? other :=
  lookup_insertEntry_of_ne h value map.entries

end OrderedMap

end XamlAssist
